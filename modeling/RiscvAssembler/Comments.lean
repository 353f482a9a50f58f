import RiscvAssembler.Lib.Cut
import RiscvAssembler.Main
import RiscvAssembler.Printing

/-!
# Where a source can be cut, and its comments

The scanner has no states, and a string may go over line ends. Still the text can be read letter by
letter: `Mode` says whether a letter stands in a comment, in a string or in neither.

* `boundary_drop`, `ends_of_boundary`: what a mode says of the place where a match starts.
* `lexemes_cut`: the lexemes of a text are those of its two parts, if the second one does not start with
  a letter or a digit, and the first one ends in no string, and in no comment that goes on.
* `lexemes_lines`: a source is scanned line by line.
* `lexemes_uncomment`: a source without its comments has the same lexemes.
* `main_uncomment`: and comes out as the same object.
-/

namespace RiscvAssembler

open Bytes Lex Lex.Regex Scanner Bison

namespace Comments

/-! ## Modes -/

/-- What a letter stands in. -/
inductive Mode
  | code | comment | string
  deriving DecidableEq

/-- The mode behind a letter. -/
def Mode.next : Mode → Byte → Mode
  | .code, c => if c = 0x23 then .comment else if c = 0x22 then .string else .code
  | .comment, c => if c = 0x0a then .code else .comment
  | .string, c => if c = 0x22 then .code else .string

/-- The mode behind a text. -/
def Mode.after (m : Mode) (text : Str) : Mode := text.foldl Mode.next m

@[simp] theorem after_nil (m : Mode) : m.after [] = m := rfl

@[simp] theorem after_cons (m : Mode) (c : Byte) (text : Str) :
    m.after (c :: text) = (m.next c).after text := rfl

theorem after_append (m : Mode) (text text' : Str) :
    m.after (text ++ text') = (m.after text).after text' :=
  List.foldl_append

/-- A mode goes on up to the letter that ends it. -/
theorem after_stays {m : Mode} {a : Byte} (hnext : ∀ c, c ≠ a → m.next c = m) {text : Str}
    (h : a ∉ text) : m.after text = m := by
  induction text with
  | nil => rfl
  | cons c text ih =>
      rw [List.mem_cons, not_or] at h
      rw [after_cons, hnext c fun hc => h.1 hc.symm, ih h.2]

/-- A string without a quote goes on. -/
theorem after_string {text : Str} (h : (0x22 : Byte) ∉ text) : Mode.string.after text = .string :=
  after_stays (fun c hc => by rw [Mode.next, if_neg hc]) h

/-- A comment without a line end goes on. -/
theorem after_comment {text : Str} (h : (0x0a : Byte) ∉ text) : Mode.comment.after text = .comment :=
  after_stays (fun c hc => by rw [Mode.next, if_neg hc]) h

/-- Neither a string nor a comment starts without its first letter. -/
theorem after_code {text : Str} (h : (0x22 : Byte) ∉ text) (h' : (0x23 : Byte) ∉ text) :
    Mode.code.after text = .code := by
  induction text with
  | nil => rfl
  | cons c text ih =>
      rw [List.mem_cons, not_or] at h h'
      rw [after_cons, Mode.next, if_neg fun hc => h'.1 hc.symm, if_neg fun hc => h.1 hc.symm, ih h.2 h'.2]

/-! ## Matches -/

/-- The bytes that patterns name and that are no letters and no digits. -/
def punctuation : Str := str "\t\n \"#%()+,-.:_\\"

/-- Behind its first place a word of a rule has no punctuation, unless it starts with a quote or a number
sign. -/
theorem tails : ∀ rule ∈ rules, (rule.re.tailAvoids punctuation ||
    ((List.range 256).map (BitVec.ofNat 8)).all fun c =>
      c == 0x22 || c == 0x23 || (rule.re.deriv c).dead) = true := by
  decide +kernel

theorem notMem_of_accepts {rule : Rule Byte Token} (hrule : rule ∈ rules) {c : Byte} (hc : c ≠ 0x22)
    (hc' : c ≠ 0x23) {text : Str} (h : rule.re.accepts (c :: text) = true) {a : Byte}
    (ha : a ∈ punctuation) : a ∉ text := by
  rcases Bool.or_eq_true_iff.mp (tails rule hrule) with htail | hdead
  · exact notMem_of_tailAvoids ha htail ((accepts_iff _ _).mp h)
  · have hmem : c ∈ (List.range 256).map (BitVec.ofNat 8) :=
      List.mem_map.mpr ⟨c.toNat, List.mem_range.mpr c.isLt, by simp⟩
    have hcdead := List.all_eq_true.mp hdead c hmem
    simp only [Bool.or_eq_true, beq_iff_eq, hc, hc', false_or] at hcdead
    have hnone := accepts_of_dead hcdead text
    rw [← Bool.not_eq_true, accepts_iff, mem_deriv, ← accepts_iff, h] at hnone
    exact absurd rfl hnone

/-- A line end is a match by itself. -/
theorem choose_lineEnd (text : Str) : choose rules (0x0a :: text) = some (1, none) := by
  obtain ⟨hspent, hwhole⟩ := Printing.whole_separator 0x0a (by decide)
  exact choose_append (u := [0x0a]) (List.cons_ne_nil _ []) (ends_spent hspent text) hwhole

/-- Behind a number sign no rule goes over a line end. -/
theorem avoids_lineEnd : ∀ rule ∈ rules, (rule.re.avoids [0x0a] ||
    [(0x23 : Byte)].all fun c => (rule.re.deriv c).avoids [0x0a]) = true := by
  decide +kernel

/-- A comment is a match up to the end of its line. -/
theorem choose_comment {body text : Str} (hbody : (0x0a : Byte) ∉ body)
    (htext : text = [] ∨ ∃ text', text = 0x0a :: text') :
    choose rules (0x23 :: (body ++ text)) = some (body.length + 1, none) := by
  have hends : Ends rules (0x23 :: body) text := by
    rcases htext with rfl | ⟨text', rfl⟩
    · exact ends_nil _
    · exact ends_cons List.mem_cons_self List.mem_cons_self avoids_lineEnd body text'
  have haccepts : (seq (quoted "#") (star (notOneOf 0x0a))).accepts (0x23 :: body) = true := by
    refine (accepts_iff _ _).mpr (mem_seq.mpr ⟨[0x23], mem_word.mpr rfl, body, ?_, rfl⟩)
    rw [notOneOf, mem_star_cls, List.all_eq_true]
    intro c hc
    rw [bne_iff_ne]
    rintro rfl
    exact hbody hc
  have hblank : (oneOf "\t ").accepts (0x23 :: body) = false := by
    rw [← Bool.not_eq_true, accepts_iff, mem_oneOf]
    rintro ⟨c, hc, heq⟩
    obtain ⟨rfl, -⟩ := List.cons.inj heq
    revert hc
    decide
  exact choose_append (List.cons_ne_nil _ _) hends
    ((whole_cons_of_rejects hblank).trans (whole_cons_of_accepts haccepts))

/-- A string is a match. -/
theorem choose_string {body : Str} (hbody : (0x22 : Byte) ∉ body) (text : Str) :
    ∃ t, choose rules (0x22 :: (body ++ 0x22 :: text)) = some (body.length + 2, t) := by
  have hends : Ends rules (0x22 :: (body ++ [0x22])) text := by
    cases text with
    | nil => exact ends_nil _
    | cons c text => exact ends_close Printing.closes_quote body text c
  have hchoose := choose_append (List.cons_ne_nil _ _) hends (Printing.whole_text (.string ⟨body, hbody⟩))
  have htext : 0x22 :: (body ++ 0x22 :: text) = (Printing.Item.string ⟨body, hbody⟩).text ++ text := by
    simp [Printing.Item.text]
  have hlen : (Printing.Item.string ⟨body, hbody⟩).text.length = body.length + 2 := by
    simp [Printing.Item.text]
  rw [htext, ← hlen]
  exact ⟨_, hchoose⟩

/-! ## Places where a match starts -/

/-- A text up to the end of its first line. -/
theorem exists_line (text : Str) : ∃ line rest, text = line ++ rest ∧ (0x0a : Byte) ∉ line ∧
    (rest = [] ∨ ∃ rest', rest = 0x0a :: rest') := by
  by_cases h : (0x0a : Byte) ∈ text
  · obtain ⟨line, rest, rfl, hline⟩ := List.eq_append_cons_of_mem h
    exact ⟨line, _, rfl, hline, Or.inr ⟨rest, rfl⟩⟩
  · exact ⟨text, [], (List.append_nil text).symm, h, Or.inl rfl⟩

/-- A place where a match starts, in a text that ends in the given mode: no string is open, and a comment
ends here. -/
def Boundary (final : Mode) (w : Str) : Prop :=
  final ≠ .string ∧
    (Mode.code.after w = final ∨
      Mode.comment.after w = final ∧ (w = [] ∨ ∃ w', w = 0x0a :: w'))

/-- **The next match starts at such a place too.** -/
theorem boundary_drop {final : Mode} {w : Str} {n : ℕ} {t : Option Token} (h : Boundary final w)
    (hchoose : choose rules w = some (n, t)) : Boundary final (w.drop n) := by
  obtain ⟨hfinal, hcode | ⟨hcomment, hw⟩⟩ := h
  · cases w with
    | nil => cases (choose_bounds hchoose).1.trans_le (choose_bounds hchoose).2
    | cons c w =>
        by_cases hhash : c = 0x23
        · subst hhash
          obtain ⟨body, text, rfl, hbody, htext⟩ := exists_line w
          rw [choose_comment hbody htext] at hchoose
          obtain ⟨rfl, -⟩ := Prod.mk.inj (Option.some.inj hchoose)
          rw [List.drop_succ_cons, List.drop_left]
          rw [after_cons, after_append] at hcode
          have hmode : (Mode.code.next 0x23).after body = .comment := after_comment hbody
          rw [hmode] at hcode
          exact ⟨hfinal, Or.inr ⟨hcode, htext⟩⟩
        · by_cases hquote : c = 0x22
          · subst hquote
            by_cases hclosed : (0x22 : Byte) ∈ w
            · obtain ⟨body, text, rfl, hbody⟩ := List.eq_append_cons_of_mem hclosed
              obtain ⟨t', hstring⟩ := choose_string hbody text
              rw [hstring] at hchoose
              obtain ⟨rfl, -⟩ := Prod.mk.inj (Option.some.inj hchoose)
              have hdrop : (0x22 :: (body ++ 0x22 :: text)).drop (body.length + 2) = text := by
                simp
              have hmode : (Mode.code.next 0x22).after body = .string := after_string hbody
              rw [after_cons, after_append, hmode] at hcode
              rw [hdrop]
              exact ⟨hfinal, Or.inl hcode⟩
            · exact absurd (hcode.symm.trans (after_string hclosed)) hfinal
          · obtain ⟨k, rfl⟩ := Nat.exists_eq_succ_of_ne_zero (choose_bounds hchoose).1.ne'
            obtain ⟨rule, hrule, haccepts, -⟩ := choose_sound hchoose
            rw [List.take_succ_cons] at haccepts
            have hnext : Mode.code.next c = .code := by rw [Mode.next, if_neg hhash, if_neg hquote]
            have hskip := after_code (notMem_of_accepts hrule hquote hhash haccepts (a := 0x22) (by decide))
              (notMem_of_accepts hrule hquote hhash haccepts (a := 0x23) (by decide))
            rw [after_cons, hnext, ← List.take_append_drop k w, after_append, hskip] at hcode
            exact ⟨hfinal, Or.inl hcode⟩
  · rcases hw with rfl | ⟨w', rfl⟩
    · cases (choose_bounds hchoose).1.trans_le (choose_bounds hchoose).2
    · rw [choose_lineEnd] at hchoose
      obtain ⟨rfl, -⟩ := Prod.mk.inj (Option.some.inj hchoose)
      exact ⟨hfinal, Or.inl hcomment⟩

/-- The text can be cut here: in front of punctuation, and in a comment in front of its end. -/
def Cuts (final : Mode) (a : Byte) : Prop :=
  final = .code ∧ a ∈ punctuation ∨ final = .comment ∧ a = 0x0a

/-- **No match runs on over a cut.** -/
theorem ends_of_boundary {final : Mode} {a : Byte} (hcut : Cuts final a) {w : Str}
    (h : Boundary final w) (hne : w ≠ []) (text : Str) : Ends rules w (a :: text) := by
  have ha : a ∈ punctuation := by
    rcases hcut with ⟨-, ha⟩ | ⟨-, rfl⟩
    · exact ha
    · decide
  obtain ⟨c, w, rfl⟩ := List.exists_cons_of_ne_nil hne
  refine ends_of_forall fun rule hrule v => ?_
  rw [← Bool.not_eq_true]
  intro haccepts
  rw [List.cons_append] at haccepts
  have hlang := (accepts_iff _ _).mp haccepts
  obtain ⟨hfinal, hmode⟩ := h
  by_cases hhash : c = 0x23
  · -- a comment has no line end in it, so it is still open at the cut
    subst hhash
    have hline : (0x0a : Byte) ∉ w ++ a :: v := by
      rcases Bool.or_eq_true_iff.mp (avoids_lineEnd rule hrule) with havoids | havoids
      · have hnot := notMem_of_avoids List.mem_cons_self havoids hlang
        exact fun hmem => hnot (List.mem_cons_of_mem _ hmem)
      · rw [List.all_cons, List.all_nil, Bool.and_true] at havoids
        exact notMem_of_avoids List.mem_cons_self havoids ((mem_deriv _ _ _).mpr hlang)
    rw [List.mem_append, not_or, List.mem_cons, not_or] at hline
    have hopen : Mode.comment = final := by
      rcases hmode with hcode | ⟨-, hw | ⟨w', hw⟩⟩
      · have hcomment : Mode.comment.after w = final := hcode
        rw [← hcomment, after_comment hline.1]
      · cases hw
      · cases hw
    rcases hcut with ⟨hcode, -⟩ | ⟨-, rfl⟩
    · cases hopen.trans hcode
    · exact hline.2.1 rfl
  · by_cases hquote : c = 0x22
    · -- a string that starts here ends before the cut, and no rule goes on behind its end
      subst hquote
      have hstring : Mode.string.after w = final := by
        rcases hmode with hcode | ⟨-, hw | ⟨w', hw⟩⟩
        · exact hcode
        · cases hw
        · cases hw
      have hclosed : (0x22 : Byte) ∈ w := by
        by_contra hopen
        exact hfinal (hstring.symm.trans (after_string hopen))
      obtain ⟨body, rest, rfl, -⟩ := List.eq_append_cons_of_mem hclosed
      rw [← mem_deriv, List.append_assoc, List.cons_append] at hlang
      have hnil := eq_nil_of_closes List.mem_cons_self (Printing.closes_quote rule hrule) hlang
      simp at hnil
    · exact notMem_of_accepts hrule hquote hhash haccepts ha (by simp)

/-- **Cutting a source.** -/
theorem lexemes_cut {text text' : Str} {a : Byte} (h : Cuts (Mode.code.after text) a) :
    lexemes (text ++ a :: text') = lexemes text ++ lexemes (a :: text') := by
  refine scan_append_of (Boundary (Mode.code.after text)) ?_ ?_ ?_ ?_
  · intro c w
    obtain ⟨n, t, hchoose⟩ := exists_choose_rules c w
    exact ⟨(n, t), hchoose⟩
  · exact fun w hw hne => ends_of_boundary h hw hne text'
  · exact fun w n t hw hchoose => boundary_drop hw hchoose
  · refine ⟨?_, Or.inl rfl⟩
    rcases h with ⟨hcode, -⟩ | ⟨hcomment, -⟩
    · rw [hcode]
      exact Mode.noConfusion
    · rw [hcomment]
      exact Mode.noConfusion

/-- A line end yields nothing. -/
theorem lexemes_lineEnd (text : Str) : lexemes (0x0a :: text) = lexemes text :=
  scan_of_choose (choose_lineEnd text)

/-- **A source is scanned line by line**, if no line leaves a string open. -/
theorem lexemes_lines (lines : List Str) (h : ∀ line ∈ lines, Mode.code.after line ≠ .string) :
    lexemes (lines.flatMap fun line => line ++ [0x0a]) = lines.flatMap lexemes := by
  induction lines with
  | nil => rfl
  | cons line lines ih =>
      obtain ⟨hline, hlines⟩ := List.forall_mem_cons.mp h
      have hcut : Cuts (Mode.code.after line) 0x0a := by
        cases hmode : Mode.code.after line with
        | code => exact Or.inl ⟨rfl, by decide⟩
        | comment => exact Or.inr ⟨rfl, rfl⟩
        | string => exact absurd hmode hline
      rw [List.flatMap_cons, List.flatMap_cons, List.append_assoc, List.singleton_append,
        lexemes_cut hcut, lexemes_lineEnd, ih hlines]

/-- A comment, and a string with a number sign in it. -/
theorem lexemes_two_lines :
    lexemes ([str "a: ret # back", str ".ascii \"#1\""].flatMap fun line => line ++ [0x0a]) =
      [str "a: ret # back", str ".ascii \"#1\""].flatMap lexemes := by
  refine lexemes_lines _ fun line hline => ?_
  rw [List.mem_cons, List.mem_singleton] at hline
  rcases hline with rfl | rfl
  · decide
  · decide

/-! ## Comments -/

/-- A text without its comments, from a letter in the given mode on. -/
def uncommentFrom : Mode → Str → Str
  | _, [] => []
  | m, c :: text =>
    if m.next c = .comment then uncommentFrom .comment text else c :: uncommentFrom (m.next c) text

/-- A source without its comments; the line ends behind them stay. -/
def uncomment (text : Str) : Str := uncommentFrom .code text

theorem uncommentFrom_comment {body : Str} (h : (0x0a : Byte) ∉ body) (text : Str) :
    uncommentFrom .comment (body ++ text) = uncommentFrom .comment text := by
  induction body with
  | nil => rfl
  | cons c body ih =>
      rw [List.mem_cons, not_or] at h
      have hnext : Mode.comment.next c = .comment := by rw [Mode.next, if_neg fun hc => h.1 hc.symm]
      rw [List.cons_append, uncommentFrom, if_pos hnext, ih h.2]

/-- A comment is over where its line is. -/
theorem uncommentFrom_line {text : Str} (h : text = [] ∨ ∃ text', text = 0x0a :: text') :
    uncommentFrom .comment text = uncommentFrom .code text := by
  rcases h with rfl | ⟨text', rfl⟩
  · rfl
  · rfl

/-- A text has no comment, or a first one. -/
theorem exists_comment (m : Mode) (hm : m ≠ .comment) (text : Str) :
    uncommentFrom m text = text ∨
      ∃ pre body rest, text = pre ++ 0x23 :: (body ++ rest) ∧ m.after pre = .code ∧
        (0x0a : Byte) ∉ body ∧ (rest = [] ∨ ∃ rest', rest = 0x0a :: rest') ∧
        uncommentFrom m text = pre ++ uncommentFrom .code rest := by
  induction text generalizing m with
  | nil => exact Or.inl rfl
  | cons c text ih =>
      rw [uncommentFrom]
      by_cases hc : m.next c = .comment
      · obtain ⟨rfl, rfl⟩ : m = .code ∧ c = 0x23 := by
          cases m with
          | code =>
              rw [Mode.next] at hc
              split_ifs at hc with hhash
              exact ⟨rfl, hhash⟩
          | comment => exact absurd rfl hm
          | string =>
              rw [Mode.next] at hc
              split_ifs at hc
        obtain ⟨body, rest, rfl, hbody, hrest⟩ := exists_line text
        refine Or.inr ⟨[], body, rest, rfl, rfl, hbody, hrest, ?_⟩
        rw [if_pos hc, uncommentFrom_comment hbody, uncommentFrom_line hrest]
        rfl
      · rw [if_neg hc]
        rcases ih (m.next c) hc with hnone | ⟨pre, body, rest, rfl, hpre, hbody, hrest, heq⟩
        · exact Or.inl (by rw [hnone])
        · exact Or.inr ⟨c :: pre, body, rest, rfl, hpre, hbody, hrest, by rw [heq]; rfl⟩

/-- **A source without its comments has the same lexemes.** -/
theorem lexemes_uncomment (text : Str) : lexemes (uncomment text) = lexemes text := by
  induction hlen : text.length using Nat.strong_induction_on generalizing text with
  | _ k ih =>
    rcases exists_comment .code Mode.noConfusion text with
      hnone | ⟨pre, body, rest, rfl, hpre, hbody, hrest, heq⟩
    · rw [uncomment, hnone]
    · have hcut : ∀ a ∈ punctuation, Cuts (Mode.code.after pre) a := fun a ha => Or.inl ⟨hpre, ha⟩
      have hcomment : lexemes (0x23 :: (body ++ rest)) = lexemes rest := by
        refine (scan_of_choose (choose_comment hbody hrest)).trans ?_
        rw [List.drop_succ_cons, List.drop_left]
        rfl
      have hshort : rest.length < k := by
        rw [← hlen]
        simp only [List.length_append, List.length_cons]
        omega
      have hrestlexemes := ih rest.length hshort rest rfl
      rw [lexemes_cut (hcut 0x23 (by decide)), hcomment, uncomment, heq, ← hrestlexemes]
      rcases hrest with rfl | ⟨rest', rfl⟩
      · exact (congrArg lexemes (List.append_nil pre)).trans (List.append_nil _).symm
      · exact lexemes_cut (hcut 0x0a (by decide))

end Comments

/-! ## The program -/

/-- The host with another text in place of a source. -/
def Host.edit (host : Host) (source : Str) (contents : List Byte) : Host :=
  { host with files := Function.update host.files source (some contents) }

/-- Two results with the same status and message and the same files, but for one of them. -/
def Result.AgreeBut (source : Str) (r r' : Result) : Prop :=
  r.status = r'.status ∧ r.err = r'.err ∧ ∀ path, path ≠ source → r.files path = r'.files path

/-- `main` looks at nothing but the tokens of the source. -/
theorem main_congr_of_tokens {host : Host} {name source : Str} {options : List Str}
    {contents contents' : List Byte} (h : host.files source = some contents)
    (ht : tokens contents' = tokens contents) :
    (main (host.edit source contents') (name :: source :: options)).AgreeBut source
      (main host (name :: source :: options)) := by
  have h' : (host.edit source contents').files source = some contents' := Function.update_self _ _ _
  have hfiles : ∀ path, path ≠ source → (host.edit source contents').files path = host.files path :=
    fun path hpath => Function.update_of_ne hpath _ _
  simp only [main, h, h', ht]
  cases parseReductions (yyparse (tokens contents)).reductions with
  | error m => exact ⟨rfl, rfl, hfiles⟩
  | ok s =>
      cases (yyparse (tokens contents)).program with
      | false => exact ⟨rfl, rfl, hfiles⟩
      | true =>
          simp only [if_true, writeElf]
          have hopens : (host.edit source contents').opens = host.opens := rfl
          have hroom : (host.edit source contents').room = host.room := rfl
          rw [hopens, hroom]
          cases host.opens (outFilename source options) with
          | false => exact ⟨rfl, rfl, hfiles⟩
          | true =>
              refine ⟨rfl, rfl, fun path hpath => ?_⟩
              simp only [if_true, Function.update_apply, hfiles path hpath]

/-- **Comments do not matter**: the program does the same with a source and with that source without its
comments. -/
theorem main_uncomment (host : Host) (name source : Str) (options : List Str) (contents : List Byte)
    (h : host.files source = some contents) :
    (main (host.edit source (Comments.uncomment contents)) (name :: source :: options)).AgreeBut source
      (main host (name :: source :: options)) :=
  main_congr_of_tokens h (congrArg (List.map Lexeme.token) (Comments.lexemes_uncomment contents))

/-- A comment at the end of a line. -/
theorem ret_uncomment :
    (main ((roomy (str "a: ret # back\n")).edit (str "a.s") (Comments.uncomment (str "a: ret # back\n")))
      [str "riscvass", str "a.s"]).AgreeBut (str "a.s")
      (main (roomy (str "a: ret # back\n")) [str "riscvass", str "a.s"]) :=
  main_uncomment (roomy (str "a: ret # back\n")) (str "riscvass") (str "a.s") [] _ rfl

end RiscvAssembler
