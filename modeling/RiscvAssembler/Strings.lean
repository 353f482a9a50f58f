import RiscvAssembler.DataSection
import RiscvAssembler.Scanner

/-!
# What a string literal stands for

* `StringLit.contents`: the bytes that a literal denotes, its quotes dropped and its escape sequences
  translated.
* `StringLit.sval_ne_contents`: the text that the parser gets is never these bytes. It has the quotes
  and the backslashes, or it ends in front of a NUL that the literal has.
* `ascii_denotes_iff`: an `.ascii` puts the contents of its literal into `.data` exactly when these are
  empty and nothing is stored.
-/

namespace RiscvAssembler

open Runs ParserState Bytes Scanner

/-! ## Escape sequences -/

/-- The byte for a letter behind a backslash. Any other character stands for itself. -/
def simpleEscape (c : Byte) : Byte :=
  if c = 0x62 then 0x08       -- \b
  else if c = 0x66 then 0x0c  -- \f
  else if c = 0x6e then 0x0a  -- \n
  else if c = 0x72 then 0x0d  -- \r
  else if c = 0x74 then 0x09  -- \t
  else c

/-- The digits of a base at the start of a text. -/
def digitsOf (base : ℕ) (text : Str) : Str :=
  text.takeWhile fun c => isAlnum c && decide (digitValue c < base)

/-- What a backslash in front of a text denotes, and how many characters of the text belong to it: three
octal digits at most, hexadecimal digits behind an `x`, or one character. -/
def escapeSequence : Str → Byte × ℕ
  | [] => (0x5c, 0)
  | c :: text =>
    let octal := digitsOf 8 ((c :: text).take 3)
    if octal ≠ [] then (BitVec.ofNat 8 (digits 8 octal), octal.length)
    else if c = 0x78 ∨ c = 0x58 then
      (BitVec.ofNat 8 (digits 16 text), (digitsOf 16 text).length + 1)
    else (simpleEscape c, 1)

/-- The bytes that a text denotes, when so many of its characters belong to what is in front. -/
def unescapeFrom : ℕ → Str → Str
  | _, [] => []
  | k + 1, _ :: text => unescapeFrom k text
  | 0, c :: text =>
    if c = 0x5c then (escapeSequence text).1 :: unescapeFrom (escapeSequence text).2 text
    else c :: unescapeFrom 0 text

/-- The bytes that a literal denotes. -/
def StringLit.contents (string : StringLit) : Str := unescapeFrom 0 string.body

/-- The string of `tests/helloworld.s` has 13 bytes. -/
example : (lit "Hello World!\\n").contents = str "Hello World!\n" := by decide

/-- No character denotes more than one byte. -/
theorem length_unescapeFrom_le (k : ℕ) (text : Str) :
    (unescapeFrom k text).length ≤ text.length := by
  induction text generalizing k with
  | nil => simp [unescapeFrom]
  | cons c text ih =>
      rw [List.length_cons]
      cases k with
      | succ k => exact (ih k).trans (Nat.le_succ _)
      | zero =>
          unfold unescapeFrom
          split_ifs
          · exact Nat.succ_le_succ (ih _)
          · exact Nat.succ_le_succ (ih 0)

theorem contents_eq_nil_iff (string : StringLit) : string.contents = [] ↔ string.body = [] := by
  unfold StringLit.contents
  cases string.body with
  | nil => exact iff_of_true rfl rfl
  | cons c text =>
      refine iff_of_false ?_ (List.cons_ne_nil c text)
      unfold unescapeFrom
      by_cases hc : c = 0x5c
      · rw [if_pos hc]
        exact List.cons_ne_nil _ _
      · rw [if_neg hc]
        exact List.cons_ne_nil _ _

/-- NUL is not a digit. -/
theorem zero_notMem_digitsOf (base : ℕ) (text : Str) : (0 : Byte) ∉ digitsOf base text := by
  intro h
  have hdigit := List.mem_takeWhile_imp h
  revert hdigit
  simp [isAlnum]

/-- An escape sequence with a NUL in it denotes a NUL. -/
theorem escapeSequence_zero {text : Str} (h : (0 : Byte) ∈ text.take (escapeSequence text).2) :
    (escapeSequence text).1 = 0 := by
  cases text with
  | nil => cases h
  | cons c text =>
      unfold escapeSequence at h ⊢
      simp only at h ⊢
      split_ifs at h ⊢ with hoctal hhex
      · have hprefix : (digitsOf 8 ((c :: text).take 3)) <+: c :: text :=
          (List.takeWhile_prefix _).trans (List.take_prefix 3 _)
        rw [← List.prefix_iff_eq_take.mp hprefix] at h
        exact absurd h (zero_notMem_digitsOf 8 _)
      · rw [List.take_succ_cons, List.mem_cons] at h
        rcases h with hc | h
        · rw [← hc] at hhex
          exact absurd hhex (by decide)
        · have hprefix : digitsOf 16 text <+: text := List.takeWhile_prefix _
          rw [← List.prefix_iff_eq_take.mp hprefix] at h
          exact absurd h (zero_notMem_digitsOf 16 _)
      · obtain rfl : 0 = c := List.mem_singleton.mp h
        rfl

/-- A NUL of the text is one of the bytes. -/
theorem zero_mem_unescapeFrom {k : ℕ} {text : Str} (h : (0 : Byte) ∈ text.drop k) :
    (0 : Byte) ∈ unescapeFrom k text := by
  induction text generalizing k with
  | nil => simp at h
  | cons c text ih =>
      cases k with
      | succ k => exact ih h
      | zero =>
          unfold unescapeFrom
          rw [List.drop_zero, List.mem_cons] at h
          by_cases hc : c = 0x5c
          · rw [if_pos hc]
            have htext : (0 : Byte) ∈ text := h.resolve_left (by rw [hc]; decide)
            rw [← List.take_append_drop (escapeSequence text).2 text, List.mem_append] at htext
            rcases htext with hin | hbehind
            · rw [escapeSequence_zero hin]
              exact List.mem_cons_self
            · exact List.mem_cons_of_mem _ (ih hbehind)
          · rw [if_neg hc]
            rcases h with rfl | h
            · exact List.mem_cons_self
            · exact List.mem_cons_of_mem _ (ih h)

/-- **The text that the parser gets is not what the literal denotes.** -/
theorem StringLit.sval_ne_contents (string : StringLit) : string.sval ≠ string.contents := by
  intro heq
  by_cases hzero : (0 : Byte) ∈ string.body
  · have hmem : (0 : Byte) ∈ string.sval := by
      rw [heq]
      exact zero_mem_unescapeFrom hzero
    exact zero_notMem_cString _ hmem
  · have hle := length_unescapeFrom_le 0 string.body
    rw [StringLit.contents] at heq
    rw [← heq, (string.sval_eq_iff).mpr hzero, List.length_cons, List.length_append] at hle
    omega

/-! ## What is stored -/

/-- The statement is a directive with a label. -/
def Statement.labelled : Statement → Bool
  | .labelDirective _ _ => true
  | _ => false

/-- Statements without an `.ascii` store the value that waits if one of them has a label. -/
theorem deposited_of_ascii_none {ss : List Statement} (h : ∀ st ∈ ss, st.ascii = none) (value : Str) :
    deposited value ss = if ss.any Statement.labelled then value else [] := by
  induction ss generalizing value with
  | nil => rfl
  | cons st ss ih =>
      obtain ⟨hst, hss⟩ := List.forall_mem_cons.mp h
      unfold deposited
      rw [ih hss, List.any_cons]
      cases st with
      | labelInstructions l b => rfl
      | labelDirective l d =>
          cases d with
          | ascii string => cases hst
          | _ => simp [Statement.deposits, Statement.waits, Statement.labelled]
      | directive d =>
          cases d with
          | ascii string => cases hst
          | _ => rfl

/-- An `.ascii` and what follows it up to the next one store its string if one of them has a label. -/
theorem deposited_of_ascii {st : Statement} {string : StringLit} {mid : List Statement}
    (hst : st.ascii = some string) (hmid : ∀ st' ∈ mid, st'.ascii = none) (value : Str) :
    deposited value (st :: mid) = if (st :: mid).any Statement.labelled then string.sval else [] := by
  unfold deposited
  rw [deposited_of_ascii_none hmid, List.any_cons]
  cases st with
  | labelInstructions l b => cases hst
  | labelDirective l d =>
      cases d with
      | ascii string' =>
          cases hst
          simp [Statement.deposits, Statement.waits, Statement.labelled]
      | _ => cases hst
  | directive d =>
      cases d with
      | ascii string' =>
          cases hst
          rfl
      | _ => cases hst

/-- In program `p`, statement `st` has an `.ascii` with this string, and `mid` goes on up to the next
`.ascii` or to the end; `s` and `t` are the states in front of `st` and behind `mid`. -/
structure Program.AsciiSite (p : Program) (string : StringLit) (st : Statement) (mid : List Statement)
    (s t : ParserState) : Prop where
  occurs : ∃ ss rest, p.statements = ss ++ st :: mid ++ rest ∧
    (∀ st' rest', rest = st' :: rest' → st'.ascii ≠ none) ∧ run step start (reductionsOf ss) = .ok s
  ascii : st.ascii = some string
  only : ∀ st' ∈ mid, st'.ascii = none
  after : run step s (reductionsOf (st :: mid)) = .ok t

/-- **When an `.ascii` stores what its literal denotes**: never, but for the empty literal that is not
stored. -/
theorem Program.ascii_denotes_iff (p : Program) (string : StringLit) (st : Statement)
    (mid : List Statement) (s t : ParserState) (h : p.AsciiSite string st mid s t) :
    t.elf.secData.data = s.elf.secData.data ++ string.contents ↔
      string.body = [] ∧ ∀ st' ∈ st :: mid, st'.labelled = false := by
  obtain ⟨ss, rest, -, -, hs⟩ := h.occurs
  have hdata := run_deposited (run_tidy hs) h.after
  rw [deposited_of_ascii h.ascii h.only] at hdata
  rw [hdata, List.append_cancel_left_eq, ← contents_eq_nil_iff]
  by_cases hany : (st :: mid).any Statement.labelled = true
  · rw [if_pos hany]
    refine iff_of_false string.sval_ne_contents ?_
    rintro ⟨-, hnone⟩
    obtain ⟨st', hmem, hlabelled⟩ := List.any_eq_true.mp hany
    rw [hnone st' hmem] at hlabelled
    cases hlabelled
  · rw [if_neg hany, eq_comm, iff_self_and]
    intro _ st' hmem
    rw [List.any_eq_true] at hany
    by_contra hlabelled
    exact hany ⟨st', hmem, by simpa using hlabelled⟩

/-- An empty string that no label takes. -/
theorem empty_denotes : (start.directiveAction (.ascii (lit ""))).elf.secData.data =
    start.elf.secData.data ++ (lit "").contents := by
  refine ((program (.directive (.ascii (lit ""))) []).ascii_denotes_iff (lit "")
    (.directive (.ascii (lit ""))) [] start _ ⟨⟨[], [], rfl, ?_, rfl⟩, rfl, ?_, rfl⟩).mpr ⟨rfl, ?_⟩
  · intro st' rest' hrest
    cases hrest
  · intro st' hmem
    cases hmem
  · intro st' hmem
    rw [List.mem_singleton.mp hmem]
    rfl

/-- The first string of `helloworld` is stored as 16 bytes. -/
theorem helloworld_not_denotes : ¬ ∀ (p : Program) string st mid s t,
    p.AsciiSite string st mid s t →
      t.elf.secData.data = s.elf.secData.data ++ string.contents := by
  intro h
  have hnext : ∀ st' rest', helloworld.statements.drop 4 = st' :: rest' → st'.ascii ≠ none := by
    intro st' rest' hrest
    cases hrest
    exact Option.some_ne_none _
  obtain ⟨s, t, hsite⟩ : ∃ s t, helloworld.AsciiSite (lit "Hello World!\\n")
      (.labelDirective (sym "message") (.ascii (lit "Hello World!\\n"))) [] s t :=
    ⟨_, _, ⟨helloworld.statements.take 3, helloworld.statements.drop 4, rfl, hnext, rfl⟩, rfl,
      fun _ hmem => (List.not_mem_nil hmem).elim, rfl⟩
  obtain ⟨hbody, -⟩ := (helloworld.ascii_denotes_iff _ _ _ s t hsite).mp (h _ _ _ _ s t hsite)
  cases hbody

end RiscvAssembler
