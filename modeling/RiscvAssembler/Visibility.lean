import RiscvAssembler.Alongside
import RiscvAssembler.Fixups
import RiscvAssembler.SymbolTable

/-!
# Declaring a label before its block

`.globl L` records `L` at the last index of `.text`, and the block `L:` that comes later no longer
does. A run with the declaration is `Ahead` of the run without: it knows `L`, so that references to
`L` take the other path until the first run knows it too.

* `Ahead.step`: what one reduction keeps, if both give `L` one address and no jump to `L` is pending.
* `Longer`: a run that knows more labels has more words, since a pending jump emits none.
* `sameWordsAndLabels_iff`: when an inserted `.globl L` moves no word and no label.
-/

namespace RiscvAssembler

open Runs ParserState

/-- The declaration of a label that has an address does nothing. -/
theorem step_global_of_known {s : ParserState} {symbol : Symbol}
    (hknown : s.elf.labelExists symbol.text = true) :
    step s (.directive (.global symbol)) = .ok s := by
  simp only [step, directiveAction, ELF32.updateLabelVisibility_eq,
    s.elf.initLabel_of_exists _ _ hknown]

/-! ## Ahead by one label -/

/-- The second state knows the address of `l`, which the first does not know or knows alike; the words
differ at exposed indices alone, and the entries for other hashes are the same. -/
structure Ahead (l : Str) (addr : Word) (exposed : ℕ → Prop) (s s' : ParserState) : Prop where
  length : s'.elf.secText.data.length = s.elf.secText.data.length
  text : ∀ k, ¬ exposed k → s'.elf.secText.data[k]? = s.elf.secText.data[k]?
  known : s'.elf.resolvedLabels.lookup l = some addr
  ahead : ∀ addr', s.elf.resolvedLabels.lookup l = some addr' → addr' = addr
  others : ∀ l', l' ≠ l → s'.elf.resolvedLabels.lookup l' = s.elf.resolvedLabels.lookup l'
  labelToAddr : ∀ hash, hash ≠ hasher l →
    s'.elf.labelToAddr.lookup hash = s.elf.labelToAddr.lookup hash
  symbolValue : ∀ y, s'.symbolValue y = s.symbolValue y
  currentSection : s'.currentSection = s.currentSection
  sublist : s'.elf.unresolvedInstructions.Sublist s.elf.unresolvedInstructions
  entries : s'.elf.unresolvedInstructions.filter (·.hash != hasher l) =
    s.elf.unresolvedInstructions.filter (·.hash != hasher l)

section

variable {l : Str} {addr : Word} {exposed : ℕ → Prop} {s s' : ParserState}

/-- An instruction that refers to another label, or to one that both runs know. -/
theorem Ahead.referencesAgree (h : Ahead l addr exposed s s') {i : Instruction}
    (hi : ∀ insnType, i.reference = some (insnType, l) → s.elf.labelExists l = true) :
    ReferencesAgree s s' i := by
  intro insnType l' hl'
  by_cases hne : l' = l
  · subst hne
    obtain ⟨addr', haddr'⟩ := s.elf.labelExists_iff.mp (hi insnType hl')
    rw [h.known, haddr', h.ahead addr' haddr']
  · exact h.others l' hne

/-- One word, after both runs have appended some. -/
theorem getElem?_append_congr {α : Type} {xs xs' ys ys' : List α} {k : ℕ}
    (hlen : xs'.length = xs.length) (hxs : xs'[k]? = xs[k]?)
    (hys : xs.length ≤ k → ys'[k - xs.length]? = ys[k - xs.length]?) :
    (xs' ++ ys')[k]? = (xs ++ ys)[k]? := by
  rw [List.getElem?_append, List.getElem?_append, hlen]
  split_ifs with hlt
  · exact hxs
  · exact hys (not_lt.mp hlt)

/-- An instruction keeps the labels and the section, so that only words and entries are left. -/
theorem Ahead.executed (h : Ahead l addr exposed s s') {i : Instruction} {t t' : ParserState}
    (ht : step s (.instruction i) = .ok t) (ht' : step s' (.instruction i) = .ok t')
    (hlength : (emitted s' i).length = (emitted s i).length)
    (htext : ∀ k, ¬ exposed k → s.elf.secText.data.length ≤ k →
      (emitted s' i)[k - s.elf.secText.data.length]? = (emitted s i)[k - s.elf.secText.data.length]?)
    (hsublist : (pended s' i).Sublist (pended s i))
    (hentries : (pended s' i).filter (·.hash != hasher l) =
      (pended s i).filter (·.hash != hasher l)) : Ahead l addr exposed t t' := by
  have hx := ParserState.step_instruction ht
  have hx' := ParserState.step_instruction ht'
  constructor
  case length => rw [hx.text, hx'.text, List.length_append, List.length_append, h.length, hlength]
  case text =>
    intro k hk
    rw [hx.text, hx'.text]
    exact getElem?_append_congr h.length (h.text k hk) (htext k hk)
  case known => rw [hx'.resolvedLabels, h.known]
  case ahead => rw [hx.resolvedLabels]; exact h.ahead
  case others => rw [hx.resolvedLabels, hx'.resolvedLabels]; exact h.others
  case labelToAddr => rw [hx.labelToAddr, hx'.labelToAddr]; exact h.labelToAddr
  case symbolValue => exact symbolValue_congr h.symbolValue ht ht'
  case currentSection => rw [hx.currentSection, hx'.currentSection, h.currentSection]
  case sublist =>
    rw [hx.unresolved, hx'.unresolved]
    exact h.sublist.append hsublist
  case entries =>
    rw [hx.unresolved, hx'.unresolved, List.filter_append, List.filter_append, h.entries, hentries]

/-- An instruction that does the same in both runs. -/
theorem Ahead.step_same (h : Ahead l addr exposed s s') {i : Instruction}
    (href : ReferencesAgree s s' i) :
    Alike (Ahead l addr exposed) (step s (.instruction i)) (step s' (.instruction i)) := by
  apply alike_of_ok_iff
  · rw [step_instruction_ok_iff, step_instruction_ok_iff, accepted_congr href]
  · intro t t' ht ht'
    have hemitted := emitted_congr href fun y _ => h.symbolValue y
    have hpended := pended_congr href h.currentSection h.length
    apply h.executed ht ht'
    case hlength => rw [hemitted]
    case htext => intro k _ _; rw [hemitted]
    case hsublist => rw [hpended]
    case hentries => rw [hpended]

/-- A branch to the label, pending in the first run alone: the words differ at its index. -/
theorem Ahead.step_branch (h : Ahead l addr exposed s s') {i : Instruction}
    (href : i.reference = some (.bType, l)) (hnew : s.elf.labelExists l = false)
    (hexposed : exposed s.elf.secText.data.length) :
    Alike (Ahead l addr exposed) (step s (.instruction i)) (step s' (.instruction i)) := by
  have hone : ∀ s : ParserState, (emitted s i).length = 1 ∧ i.Accepted s := by
    intro s
    unfold Instruction.reference at href
    split at href
    · exact ⟨rfl, trivial⟩
    · cases href
    · cases href
  have hknown : s'.elf.labelExists l = true := s'.elf.labelExists_iff.mpr ⟨addr, h.known⟩
  have hpended : pended s i = [s.pendingEntry .bType l] := by simp [pended, href, hnew]
  have hpended' : pended s' i = [] := by simp [pended, href, hknown]
  apply alike_of_ok_iff
  · rw [step_instruction_ok_iff, step_instruction_ok_iff]
    exact iff_of_true (hone s).2 (hone s').2
  · intro t t' ht ht'
    have hlen := (hone s).1
    have hlen' := (hone s').1
    apply h.executed ht ht'
    case hlength => rw [hlen, hlen']
    case htext =>
      -- the one word of either run stands at the exposed index
      intro k hk hle
      have hne : k ≠ s.elf.secText.data.length := fun heq => hk (heq ▸ hexposed)
      rw [List.getElem?_eq_none (by omega), List.getElem?_eq_none (by omega)]
    case hsublist => rw [hpended']; exact List.nil_sublist _
    case hentries => rw [hpended, hpended']; simp [pendingEntry]

/-- An instruction, in both runs. -/
theorem Ahead.step_instruction (h : Ahead l addr exposed s s') (i : Instruction)
    (hjump : i.reference = some (.jType, l) → s.elf.labelExists l = true)
    (hbranch : i.reference = some (.bType, l) → s.elf.labelExists l = false →
      exposed s.elf.secText.data.length) :
    Alike (Ahead l addr exposed) (step s (.instruction i)) (step s' (.instruction i)) := by
  by_cases hpending : i.reference = some (.bType, l) ∧ s.elf.labelExists l = false
  · exact h.step_branch hpending.1 hpending.2 (hbranch hpending.1 hpending.2)
  · refine h.step_same (h.referencesAgree ?_)
    intro insnType href
    by_contra hnew
    rw [Bool.not_eq_true] at hnew
    rcases length_emitted_reference href hnew with ⟨rfl, -⟩ | ⟨rfl, -⟩
    · exact hpending ⟨href, hnew⟩
    · exact absurd (hjump href) (by simp [hnew])

/-- What a reduction other than an instruction does, in both runs. -/
theorem Ahead.step_other (h : Ahead l addr exposed s s') {r : Reduction}
    (hr : ∀ i, r ≠ .instruction i)
    (hrecord : r.records = some l → s.elf.labelExists l = false → s.labelAddr = addr)
    {t t' : ParserState} (ht : step s r = .ok t) (ht' : step s' r = .ok t') :
    Ahead l addr exposed t t' := by
  obtain ⟨htext, hunresolved, -⟩ := step_kept ht hr
  obtain ⟨htext', hunresolved', -⟩ := step_kept ht' hr
  have hknown : s'.elf.labelExists l = true := s'.elf.labelExists_iff.mpr ⟨addr, h.known⟩
  have hlabelAddr : s'.labelAddr = s.labelAddr := by
    rw [labelAddr, labelAddr, Text.lastIndex_eq, Text.lastIndex_eq, h.length]
  have hexists : ∀ l', l' ≠ l → s'.elf.labelExists l' = s.elf.labelExists l' :=
    fun l' hne => s.elf.labelExists_congr (h.others l' hne)
  have hlookup : t'.elf.resolvedLabels.lookup l = some addr ∧
      (∀ addr', t.elf.resolvedLabels.lookup l = some addr' → addr' = addr) ∧
      (∀ l', l' ≠ l → t'.elf.resolvedLabels.lookup l' = t.elf.resolvedLabels.lookup l') ∧
      ∀ hash, hash ≠ hasher l → t'.elf.labelToAddr.lookup hash = t.elf.labelToAddr.lookup hash := by
    rcases step_labels ht' with ⟨m, hm, hnew', hres', haddr'⟩ | ⟨hold', hres', haddr'⟩
    · -- a label that is new in the second run is another one, and new in the first
      have hne : m ≠ l := by
        rintro rfl
        rw [hknown] at hnew'
        cases hnew'
      rcases step_labels ht with ⟨m', hm', -, hres, haddr⟩ | ⟨hold, -, -⟩
      · obtain rfl := Option.some.inj (hm.symm.trans hm')
        rw [hres, hres', haddr, haddr', hlabelAddr, AList.lookup_insert_ne hne.symm,
          AList.lookup_insert_ne hne.symm]
        refine ⟨h.known, h.ahead, ?_, ?_⟩
        · intro l' hl'
          by_cases heq : l' = m
          · rw [heq, AList.lookup_insert, AList.lookup_insert]
          · rw [AList.lookup_insert_ne heq, AList.lookup_insert_ne heq, h.others l' hl']
        · intro hash hhash
          by_cases heq : hash = hasher m
          · rw [heq, AList.lookup_insert, AList.lookup_insert]
          · rw [AList.lookup_insert_ne heq, AList.lookup_insert_ne heq, h.labelToAddr hash hhash]
      · rw [hexists m hne, hold m hm] at hnew'
        cases hnew'
    · rw [hres', haddr']
      rcases step_labels ht with ⟨m, hm, hnew, hres, haddr⟩ | ⟨-, hres, haddr⟩
      · -- the first run catches up
        have heq : m = l := by
          by_contra hne
          have hex := hold' m hm
          rw [hexists m hne, hnew] at hex
          cases hex
        subst heq
        have hsame := hrecord hm hnew
        rw [hres, haddr]
        refine ⟨h.known, ?_, ?_, ?_⟩
        · intro addr' hlookup
          rw [AList.lookup_insert, hsame] at hlookup
          exact (Option.some.inj hlookup).symm
        · intro l' hl'
          rw [AList.lookup_insert_ne hl', h.others l' hl']
        · intro hash hhash
          rw [AList.lookup_insert_ne hhash, h.labelToAddr hash hhash]
      · rw [hres, haddr]
        exact ⟨h.known, h.ahead, h.others, h.labelToAddr⟩
  obtain ⟨hl, hahead, hothers, haddr⟩ := hlookup
  refine ⟨?_, ?_, hl, hahead, hothers, haddr, symbolValue_congr h.symbolValue ht ht',
    currentSection_congr h.currentSection ht ht', ?_, ?_⟩
  · rw [htext, htext', h.length]
  · rw [htext, htext']
    exact h.text
  · rw [hunresolved, hunresolved']
    exact h.sublist
  · rw [hunresolved, hunresolved', h.entries]

/-- **One reduction, in both runs.** -/
theorem Ahead.step (h : Ahead l addr exposed s s') (r : Reduction)
    (hrecord : r.records = some l → s.elf.labelExists l = false → s.labelAddr = addr)
    (hjump : ∀ i, r = .instruction i → i.reference = some (.jType, l) → s.elf.labelExists l = true)
    (hbranch : ∀ i, r = .instruction i → i.reference = some (.bType, l) →
      s.elf.labelExists l = false → exposed s.elf.secText.data.length) :
    Alike (Ahead l addr exposed) (ParserState.step s r) (ParserState.step s' r) := by
  cases r with
  | instruction i => exact h.step_instruction i (hjump i rfl) (hbranch i rfl)
  | _ =>
      refine alike_of_ok_iff (iff_of_true ⟨_, rfl⟩ ⟨_, rfl⟩) ?_
      intro t t' ht ht'
      exact h.step_other (by simp) hrecord ht ht'

/-- A declaration of a label that the second run knows does nothing there. -/
theorem Ahead.step_global (h : Ahead l addr exposed s s') {symbol : Symbol} (hl : symbol.text = l) :
    Alike (Ahead l addr exposed) (.ok s) (ParserState.step s' (.directive (.global symbol))) := by
  have hknown : s'.elf.labelExists symbol.text = true :=
    s'.elf.labelExists_iff.mpr ⟨addr, hl ▸ h.known⟩
  rw [step_global_of_known hknown]
  exact h

end

/-! ## The words and labels in the end -/

/-- The second run knows all labels and symbols of the first, and has as many words at least. -/
structure Longer (s s' : ParserState) : Prop where
  labels : ∀ l, s.elf.labelExists l = true → s'.elf.labelExists l = true
  symbolValue : ∀ y, s'.symbolValue y = s.symbolValue y
  length : s.elf.secText.data.length ≤ s'.elf.secText.data.length

/-- The words of a jump. -/
theorem length_emitted_jump (s : ParserState) {i : Instruction} {l : Str}
    (href : i.reference = some (.jType, l)) :
    (emitted s i).length = if s.elf.labelExists l then 1 else 0 := by
  unfold Instruction.reference at href
  split at href
  · cases href
  · cases href
    rename_i symbol
    cases hl : s.elf.resolvedLabels.lookup symbol.text with
    | some addr =>
        have hex := s.elf.labelExists_iff.mpr ⟨addr, hl⟩
        simp [emitted, hl, hex]
    | none =>
        have hex := s.elf.labelExists_eq_false.mpr hl
        simp [emitted, hl, hex]
  · cases href

/-- Who knows more labels emits more words. -/
theorem Longer.emitted {s s' : ParserState} (h : Longer s s') (i : Instruction) :
    (emitted s i).length ≤ (ParserState.emitted s' i).length := by
  have hcongr : i.reference = none → ParserState.emitted s' i = ParserState.emitted s i := by
    intro hnone
    refine emitted_congr ?_ fun y _ => h.symbolValue y
    intro insnType l hl
    rw [hnone] at hl
    cases hl
  cases i with
  | branch op rs1 rs2 symbol => exact Nat.le_refl 1
  | psuedo p =>
      cases p with
      | jump symbol =>
          rw [length_emitted_jump s rfl, length_emitted_jump s' rfl]
          cases hl : s.elf.labelExists symbol.text with
          | true => rw [h.labels _ hl]
          | false => simp
      | _ => exact le_rfl
  | _ => rw [hcongr rfl]

theorem Longer.emittedBy {s s' : ParserState} (h : Longer s s') (r : Reduction) :
    (emittedBy s r).length ≤ (ParserState.emittedBy s' r).length := by
  cases r with
  | instruction i => exact h.emitted i
  | _ => exact le_rfl

/-- One reduction, in both runs. -/
theorem Longer.step {s s' t t' : ParserState} {r : Reduction} (h : Longer s s')
    (ht : step s r = .ok t) (ht' : ParserState.step s' r = .ok t') : Longer t t' := by
  constructor
  case labels =>
    intro l hl
    rw [step_labelExists ht']
    exact ((step_labelExists ht l).mp hl).imp (h.labels l) id
  case symbolValue => exact symbolValue_congr h.symbolValue ht ht'
  case length =>
    rw [step_text ht, step_text ht', List.length_append, List.length_append]
    exact Nat.add_le_add h.length (h.emittedBy r)

/-! ## Inserted declarations -/

/-- The second program is the first with `.globl` of a symbol inserted behind the statements `ss`, and
possibly at later places. -/
structure GloblInserted (p q : Program) (symbol : Symbol) (ss rest rest' : List Statement) : Prop where
  first : p.statements = ss ++ rest
  second : q.statements = ss ++ .directive (.global symbol) :: rest'
  inserted : Insertion (fun st => st = .directive (.global symbol)) rest rest'

/-- The declaration can change the word at index `k`: the word of a branch that is met behind `ss`
when the label has no address, or one at which an entry for the label's hash aims. -/
def Program.Exposed (p : Program) (symbol : Symbol) (ss : List Statement) (u : ParserState)
    (k : ℕ) : Prop :=
  (∃ pre i s, p.Pending pre i .bType symbol.text s u ∧ (reductionsOf ss).length ≤ pre.length ∧
    s.elf.secText.data.length = k) ∨
  ∃ entry ∈ u.elf.unresolvedInstructions,
    entry.hash = hasher symbol.text ∧ entry.insnNumber.toNat = k

/-- What must hold if the label has no address in state `s`, where it is declared: the first program
records it at the same index, no jump to it that comes later finds it without one, and the words that
the declaration can change come out of the pass as without it. -/
structure DeclaredEarly (p q : Program) (symbol : Symbol) (ss : List Statement) (s u : ParserState) :
    Prop where
  address : ∀ r v, p.Meets r v → r.records = some symbol.text →
    v.elf.labelExists symbol.text = false → v.labelAddr = s.labelAddr
  jumps : ∀ pre i v, p.Pending pre i .jType symbol.text v u → pre.length < (reductionsOf ss).length
  words : ∀ u', q.parse = .ok u' → ∀ k, p.Exposed symbol ss u k → u'.finalWord k = u.finalWord k

section

variable {p q : Program} {symbol : Symbol} {ss rest rest' : List Statement} {s u : ParserState}

/-- The state in which the label is declared, and the two runs that start there, side by side. -/
theorem GloblInserted.runs (h : GloblInserted p q symbol ss rest rest') (hu : p.parse = .ok u) :
    ∃ (s : ParserState) (ps : List (Option Reduction × Option Reduction)),
      run step start (reductionsOf ss) = .ok s ∧
      p.reductions = reductionsOf ss ++ ps.filterMap Prod.fst ∧
      run step s (ps.filterMap Prod.fst) = .ok u ∧
      q.parse = run step { s with elf := s.elf.initLabel symbol.text true (str ".text") }
        (ps.filterMap Prod.snd) ∧
      ∀ x ∈ ps, (∃ r, x = (some r, some r)) ∨ x = (none, some (.directive (.global symbol))) := by
  obtain ⟨ps, hfst, hsnd, hps⟩ := h.inserted.exists_pairs Statement.reductions
  have hp : p.reductions = reductionsOf ss ++ ps.filterMap Prod.fst := by
    rw [Program.reductions, h.first, reductionsOf_append, hfst]
    rfl
  have hrun : run step start (reductionsOf ss ++ ps.filterMap Prod.fst) = .ok u := hp ▸ hu
  obtain ⟨s, hs, hrest⟩ := run_append_eq_ok.mp hrun
  refine ⟨s, ps, hs, hp, hrest, ?_, ?_⟩
  · rw [Program.parse, parseReductions, Program.reductions, h.second, reductionsOf_append,
      reductionsOf_cons, run_append, hs, hsnd]
    simp only [Except.bind, Statement.reductions, List.cons_append, List.nil_append, run, step,
      directiveAction, ELF32.updateLabelVisibility_eq]
    rfl
  · intro x hx
    refine (hps x hx).imp id ?_
    rintro ⟨st, r, rfl, hr, rfl⟩
    simp only [Statement.reductions, List.mem_singleton] at hr
    rw [hr]

/-- A run in which a new label has just been declared is ahead. -/
theorem ahead_of_declared (exposed : ℕ → Prop) (hnew : s.elf.labelExists symbol.text = false) :
    Ahead symbol.text s.labelAddr exposed s
      { s with elf := s.elf.initLabel symbol.text true (str ".text") } := by
  obtain ⟨hres, haddr⟩ := s.elf.initLabel_of_new (str ".text") true hnew
  constructor
  case length => simp
  case text => simp
  case known =>
    rw [hres, AList.lookup_insert]
    rfl
  case ahead =>
    intro addr' hlookup
    rw [s.elf.labelExists_eq_false.mp hnew] at hlookup
    cases hlookup
  case others =>
    intro l' hne
    rw [hres, AList.lookup_insert_ne hne]
  case labelToAddr =>
    intro hash hne
    rw [haddr, AList.lookup_insert_ne hne]
  case symbolValue => simp [ParserState.symbolValue]
  case currentSection => rfl
  case sublist => simp
  case entries => simp

/-- **The run with the declaration stays ahead**, under the conditions of `DeclaredEarly`. -/
theorem GloblInserted.ahead (h : GloblInserted p q symbol ss rest rest') (hu : p.parse = .ok u)
    (hs : run step start (reductionsOf ss) = .ok s) (hnew : s.elf.labelExists symbol.text = false)
    (hearly : DeclaredEarly p q symbol ss s u) :
    ∃ u', q.parse = .ok u' ∧ Ahead symbol.text s.labelAddr (p.Exposed symbol ss u) u u' := by
  obtain ⟨s', ps, hs', hp, hrest, hq, hps⟩ := h.runs hu
  obtain rfl := run_unique hs hs'
  have hrun : Alike (Ahead symbol.text s.labelAddr (p.Exposed symbol ss u))
      (run step s (ps.filterMap Prod.fst))
      (run step { s with elf := s.elf.initLabel symbol.text true (str ".text") }
        (ps.filterMap Prod.snd)) := by
    refine run_pairs (fun _ => Ahead symbol.text s.labelAddr (p.Exposed symbol ss u))
      (ahead_of_declared _ hnew) ps ?_
    intro xs x ys t t' hx ht _ hahead
    rcases hps x (hx ▸ by simp) with ⟨r, rfl⟩ | rfl
    · -- where the first run is
      have hsplit : p.reductions =
          (reductionsOf ss ++ xs.filterMap Prod.fst) ++ r :: ys.filterMap Prod.fst := by
        simp [hp, hx]
      have hbefore : run step start (reductionsOf ss ++ xs.filterMap Prod.fst) = .ok t :=
        run_append_eq_ok.mpr ⟨s, hs, ht⟩
      refine hahead.step r ?_ ?_ ?_
      · intro hrecords hunknown
        exact hearly.address r t ⟨_, _, hsplit, hbefore⟩ hrecords hunknown
      · rintro i rfl href
        by_contra hunknown
        rw [Bool.not_eq_true] at hunknown
        have hlt := hearly.jumps _ i t ⟨⟨_, hsplit⟩, href, hbefore, hunknown, hu⟩
        rw [List.length_append] at hlt
        omega
      · rintro i rfl href hunknown
        refine Or.inl ⟨_, i, t, ⟨⟨_, hsplit⟩, href, hbefore, hunknown, hu⟩, ?_, rfl⟩
        rw [List.length_append]
        omega
    · exact hahead.step_global rfl
  rw [hq]
  exact hrun.of_ok hrest

end

end RiscvAssembler
