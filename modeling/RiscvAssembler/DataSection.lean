import RiscvAssembler.Denotation

/-!
# What reaches `.data`

The string of an `.ascii` waits in `temp_value` until a label stands in front of a directive, which may
be the `.ascii` itself, another directive, or none.

* `run_deposited`: the bytes that a list of statements deposits in `.data`, from the statements alone.
* `lost_eq_nil_iff`: nothing is lost exactly when every unlabelled `.ascii` is followed by a labelled
  directive other than `.ascii` before the next `.ascii` (`Settled`).
* `asciiOnce_iff`: when every `.ascii` reaches `.data` once, in order, and every label of one has its
  offset.
-/

namespace RiscvAssembler

open Runs ParserState Bytes

/-! ## Deposits -/

/-- The string of the statement's `.ascii`, if it has one. -/
def Statement.ascii : Statement → Option StringLit
  | .labelDirective _ (.ascii string) => some string
  | .directive (.ascii string) => some string
  | _ => none

/-- The byte strings of all `.ascii` directives, in source order. -/
def asciiBytes (ss : List Statement) : Str := (ss.filterMap Statement.ascii).flatMap StringLit.sval

/-- The bytes that a statement stores when `value` waits. -/
def Statement.deposits (value : Str) : Statement → Str
  | .labelDirective _ (.ascii string) => string.sval
  | .labelDirective _ _ => value
  | _ => []

/-- The value that waits after a statement, when `value` waits in front of it. -/
def Statement.waits (value : Str) : Statement → Str
  | .directive (.ascii string) => string.sval
  | .labelDirective _ _ => []
  | _ => value

/-- The value that a statement overwrites when `value` waits. -/
def Statement.loses (value : Str) (st : Statement) : Str := if st.ascii.isSome then value else []

/-- The bytes that statements store when `value` waits in front of them. -/
def deposited (value : Str) : List Statement → Str
  | [] => []
  | st :: ss => st.deposits value ++ deposited (st.waits value) ss

/-- The bytes that are overwritten, or still wait at the end. -/
def lost (value : Str) : List Statement → Str
  | [] => value
  | st :: ss => st.loses value ++ lost (st.waits value) ss

/-- A statement stores its deposit, and leaves a value to wait. -/
theorem run_statement {s t : ParserState} {st : Statement} (hs : s.Tidy)
    (h : run step s st.reductions = .ok t) :
    t.elf.secData.data = s.elf.secData.data ++ st.deposits s.tempValue ∧
      t.tempValue = st.waits s.tempValue ∧ t.Tidy := by
  cases st with
  | labelInstructions label b =>
      obtain ⟨v, hv, hlabel⟩ := run_append_eq_ok.mp h
      have hblock : ∀ r ∈ b.toList.map Reduction.instruction, ∃ i, r = .instruction i := by
        intro r hr
        obtain ⟨i, -, rfl⟩ := List.mem_map.mp hr
        exact ⟨i, rfl⟩
      have hdata : v.elf.secData = s.elf.secData := by
        refine run_project (fun s => s.elf.secData) ?_ hv
        intro r hr s t ht
        obtain ⟨i, rfl⟩ := hblock r hr
        exact (step_instruction ht).secData
      have hvalue : v.tempValue = s.tempValue := by
        refine run_project (fun s => s.tempValue) ?_ hv
        intro r hr s t ht
        obtain ⟨i, rfl⟩ := hblock r hr
        exact (step_instruction ht).tempValue
      have htidy : v.Tidy :=
        run_invariant Tidy (fun _ _ _ hs ht => (step_tabled hs ht).tidy) hs hv
      rw [run_singleton] at hlabel
      have htabled := step_tabled htidy hlabel
      cases hlabel
      exact ⟨by rw [htabled.secData, hdata]; rfl, hvalue, htabled.tidy⟩
  | labelDirective label d =>
      obtain ⟨v, hv, hlabel⟩ := run_cons_eq_ok.mp h
      rw [run_singleton] at hlabel
      have hfirst := step_tabled hs hv
      have hsecond := step_tabled hfirst.tidy hlabel
      have htemp : t.tempValue = [] := by
        cases hlabel
        simp only [labelDirectiveAction]
        split_ifs with hlen
        · rfl
        · simpa using hlen
      refine ⟨?_, htemp, hsecond.tidy⟩
      rw [hsecond.secData, hfirst.secData]
      cases hv
      cases d <;> simp [storedBy, directiveAction, Statement.deposits]
  | directive d =>
      have h' := h
      rw [Statement.reductions, run_singleton] at h'
      have htabled := step_tabled hs h'
      refine ⟨htabled.secData, ?_, htabled.tidy⟩
      cases h'
      cases d <;> rfl

/-- **What statements store.** -/
theorem run_deposited {s t : ParserState} {ss : List Statement} (hs : s.Tidy)
    (h : run step s (reductionsOf ss) = .ok t) :
    t.elf.secData.data = s.elf.secData.data ++ deposited s.tempValue ss := by
  induction ss generalizing s with
  | nil =>
      cases h
      exact (List.append_nil _).symm
  | cons st ss ih =>
      rw [reductionsOf_cons] at h
      obtain ⟨v, hv, hrest⟩ := run_append_eq_ok.mp h
      obtain ⟨hdata, hvalue, htidy⟩ := run_statement hs hv
      rw [ih htidy hrest, hdata, hvalue, deposited, List.append_assoc]

/-! ## When nothing is lost -/

/-- A labelled directive other than `.ascii` comes before the next `.ascii`. -/
def labelledNext : List Statement → Bool
  | [] => false
  | .labelDirective _ (.ascii _) :: _ => false
  | .labelDirective _ _ :: _ => true
  | .directive (.ascii _) :: _ => false
  | _ :: ss => labelledNext ss

/-- The value of every unlabelled `.ascii` is taken by a label. -/
def Settled (ss : List Statement) : Prop :=
  ∀ pre string rest, ss = pre ++ .directive (.ascii string) :: rest → labelledNext rest = true

theorem settled_cons (st : Statement) (ss : List Statement) :
    Settled (st :: ss) ↔
      (∀ string, st = .directive (.ascii string) → labelledNext ss = true) ∧ Settled ss := by
  constructor
  · intro h
    refine ⟨?_, ?_⟩
    · rintro string rfl
      exact h [] string ss rfl
    · rintro pre string rest rfl
      exact h (st :: pre) string rest rfl
  · rintro ⟨hfirst, hrest⟩ pre string rest heq
    cases pre with
    | nil =>
        cases heq
        exact hfirst string rfl
    | cons st' pre =>
        obtain ⟨-, rfl⟩ := List.cons.inj heq
        exact hrest pre string rest rfl

/-- A labelled `.ascii` ends the wait of what comes before it. -/
theorem labelledNext_append (ss rest : List Statement) (label : Symbol) (string : StringLit) :
    labelledNext (ss ++ .labelDirective label (.ascii string) :: rest) = labelledNext ss := by
  induction ss with
  | nil => rfl
  | cons st ss ih =>
      cases st with
      | labelInstructions l b => exact ih
      | labelDirective l d => cases d <;> rfl
      | directive d => cases d <;> first | exact ih | rfl

theorem asciiBytes_cons (st : Statement) (ss : List Statement) :
    asciiBytes (st :: ss) = (st.ascii.map StringLit.sval).getD [] ++ asciiBytes ss := by
  cases h : st.ascii <;> simp [asciiBytes, h]

/-- What waits and what is written is stored or lost. -/
theorem length_deposited_add (value : Str) (ss : List Statement) :
    (deposited value ss).length + (lost value ss).length = value.length + (asciiBytes ss).length := by
  induction ss generalizing value with
  | nil => simp [deposited, lost, asciiBytes]
  | cons st ss ih =>
      have hrest := ih (st.waits value)
      have hst : (st.deposits value).length + (st.loses value).length + (st.waits value).length =
          value.length + ((st.ascii.map StringLit.sval).getD []).length := by
        cases st with
        | labelInstructions l b => simp [Statement.deposits, Statement.loses, Statement.waits,
            Statement.ascii]
        | labelDirective l d =>
            cases d <;> simp [Statement.deposits, Statement.loses, Statement.waits, Statement.ascii,
              Nat.add_comm]
        | directive d =>
            cases d <;> simp [Statement.deposits, Statement.loses, Statement.waits, Statement.ascii]
      rw [asciiBytes_cons, deposited, lost, List.length_append, List.length_append, List.length_append]
      omega

/-- **When nothing is lost.** -/
theorem lost_eq_nil_iff (value : Str) (ss : List Statement) :
    lost value ss = [] ↔ (value = [] ∨ labelledNext ss = true) ∧ Settled ss := by
  induction ss generalizing value with
  | nil => simp [lost, labelledNext, Settled]
  | cons st ss ih =>
      rw [lost, List.append_eq_nil_iff, ih, settled_cons]
      cases st with
      | labelInstructions l b =>
          simp [Statement.loses, Statement.waits, Statement.ascii, labelledNext]
      | labelDirective l d =>
          cases d <;> simp [Statement.loses, Statement.waits, Statement.ascii, labelledNext]
      | directive d =>
          cases d with
          | ascii string =>
              simp [Statement.loses, Statement.waits, Statement.ascii, labelledNext,
                string.sval_ne_nil]
          | _ => simp [Statement.loses, Statement.waits, Statement.ascii, labelledNext]

/-- When nothing is lost, what waits and what is written is stored in order. -/
theorem deposited_eq {value : Str} {ss : List Statement} (h : lost value ss = []) :
    deposited value ss = value ++ asciiBytes ss := by
  induction ss generalizing value with
  | nil =>
      have hvalue : value = [] := h
      simp [deposited, asciiBytes, hvalue]
  | cons st ss ih =>
      obtain ⟨hst, hss⟩ := List.append_eq_nil_iff.mp h
      rw [deposited, ih hss, asciiBytes_cons]
      cases st with
      | labelInstructions l b => simp [Statement.deposits, Statement.waits, Statement.ascii]
      | labelDirective l d =>
          cases d with
          | ascii string =>
              have hvalue : value = [] := by simpa [Statement.loses, Statement.ascii] using hst
              simp [Statement.deposits, Statement.waits, Statement.ascii, hvalue]
          | _ => simp [Statement.deposits, Statement.waits, Statement.ascii]
      | directive d =>
          cases d with
          | ascii string =>
              have hvalue : value = [] := by simpa [Statement.loses, Statement.ascii] using hst
              simp [Statement.deposits, Statement.waits, Statement.ascii, hvalue]
          | _ => simp [Statement.deposits, Statement.waits, Statement.ascii]

/-- Statements store what is written, and nothing else, iff nothing is lost. -/
theorem deposited_eq_iff (ss : List Statement) : deposited [] ss = asciiBytes ss ↔ Settled ss := by
  have hsettled := lost_eq_nil_iff [] ss
  simp only [true_or, true_and] at hsettled
  rw [← hsettled]
  constructor
  · intro h
    have hlen := length_deposited_add [] ss
    rw [h, List.length_nil, Nat.zero_add, Nat.add_eq_left] at hlen
    exact List.length_eq_zero_iff.mp hlen
  · intro h
    rw [deposited_eq h, List.nil_append]

/-! ## Whole programs -/

/-- Every `.ascii` reaches `.data` once and in source order, and the entry that a labelled one appends
has the offset at which its own string begins. -/
structure Program.AsciiOnce (p : Program) (e : ELF32) : Prop where
  data : e.secData.data = asciiBytes p.statements
  labels : ∀ ss label string rest s t,
    p.statements = ss ++ .labelDirective label (.ascii string) :: rest →
    run step start (reductionsOf ss) = .ok s →
    run step s (Statement.labelDirective label (.ascii string)).reductions = .ok t →
    ∃ sym ∈ e.symtab.data, p.Entered label.text sym ∧
      t.elf.symtab.data = s.elf.symtab.data ++ [sym] ∧ sym.stValue.toNat = (asciiBytes ss).length

/-- Every unlabelled `.ascii` is settled, and the labelled ones start within 32 bits. -/
structure Program.AsciiFits (p : Program) : Prop where
  settled : Settled p.statements
  fits : ∀ ss label string rest, p.statements = ss ++ .labelDirective label (.ascii string) :: rest →
    (asciiBytes ss).length < 2 ^ 32

/-- The statements in front of a labelled `.ascii` are settled by themselves. -/
theorem Settled.of_append {ss rest : List Statement} {label : Symbol} {string : StringLit}
    (h : Settled (ss ++ .labelDirective label (.ascii string) :: rest)) : Settled ss := by
  rintro pre string' rest' rfl
  rw [← labelledNext_append rest' rest label string]
  exact h pre string' _ (by simp)

/-- The entry that a labelled `.ascii` appends has the offset at which `.data` ends in front of it. -/
theorem Program.ascii_appends {p : Program} {u : ParserState} (hu : p.parse = .ok u)
    {ss rest : List Statement} {label : Symbol} {string : StringLit} {s t : ParserState}
    (hp : p.statements = ss ++ .labelDirective label (.ascii string) :: rest)
    (hs : run step start (reductionsOf ss) = .ok s)
    (ht : run step s (Statement.labelDirective label (.ascii string)).reductions = .ok t) :
    ∃ sym, p.Entered label.text sym ∧ t.elf.symtab.data = s.elf.symtab.data ++ [sym] ∧
      sym.stValue = BitVec.ofNat 32 s.elf.secData.data.length := by
  have hmeets := meets_ascii hp hs
  have hlabel : step (s.directiveAction (.ascii string)) (.labelDirective label) = .ok t :=
    (run_singleton _ _).symm.trans ht
  have htabled := step_tabled (hmeets.split hu).1 hlabel
  have hvalue : (s.directiveAction (.ascii string)).tempValue ≠ [] := string.sval_ne_nil
  have hpushed := pushedBy_labelDirective label hvalue
  refine ⟨_, (entered_iff hu).mpr ⟨_, _, hmeets, rfl, hpushed⟩, ?_, rfl⟩
  rw [htabled.symtab, hpushed]
  rfl

/-- **When every `.ascii` reaches `.data` once.** -/
theorem Program.asciiOnce_iff (p : Program) (e : ELF32) (h : p.assemble = .ok e) :
    p.AsciiOnce e ↔ p.AsciiFits := by
  obtain ⟨u, hu, hfix⟩ := bind_eq_ok.mp h
  cases hfix
  obtain ⟨hsymtab, -, hsecData⟩ := u.elf.tables_resolveUnresolvedInstructions
  have hdata : u.elf.resolveUnresolvedInstructions.secData.data = deposited [] p.statements := by
    rw [hsecData]
    exact run_deposited tidy_start hu
  constructor
  · intro honce
    refine ⟨(deposited_eq_iff _).mp (hdata.symm.trans honce.data), ?_⟩
    intro ss label string rest hp
    have hrun : run step start (reductionsOf (ss ++ .labelDirective label (.ascii string) :: rest)) =
        .ok u := hp ▸ hu
    rw [reductionsOf_append, reductionsOf_cons] at hrun
    obtain ⟨s, hs, hrun⟩ := run_append_eq_ok.mp hrun
    obtain ⟨t, ht, -⟩ := run_append_eq_ok.mp hrun
    obtain ⟨sym, -, -, -, hvalue⟩ := honce.labels ss label string rest s t hp hs ht
    rw [← hvalue]
    exact sym.stValue.isLt
  · intro hfits
    refine ⟨hdata.trans ((deposited_eq_iff _).mpr hfits.settled), ?_⟩
    intro ss label string rest s t hp hs ht
    obtain ⟨sym, hsym, happend, hvalue⟩ := ascii_appends hu hp hs ht
    have hfront : s.elf.secData.data = asciiBytes ss := by
      have hdeposited : s.elf.secData.data = deposited [] ss := run_deposited tidy_start hs
      rw [hdeposited, deposited_eq_iff]
      exact (hp ▸ hfits.settled : Settled (ss ++ _ :: rest)).of_append
    refine ⟨sym, ?_, hsym, happend, ?_⟩
    · rw [hsymtab]
      exact (mem_symtab_iff hu).mpr (Or.inr ⟨_, hsym⟩)
    · rw [hvalue, hfront, BitVec.toNat_ofNat, Nat.mod_eq_of_lt (hfits.fits ss label string rest hp)]

/-- Both strings of `helloworld` are labelled. -/
theorem helloworld_asciiOnce : ∃ e, helloworld.assemble = .ok e ∧ helloworld.AsciiOnce e := by
  refine ⟨_, rfl, (helloworld.asciiOnce_iff _ rfl).mpr ⟨?_, ?_⟩⟩
  · intro pre string rest hp
    rcases pre with _ | ⟨_, _ | ⟨_, _ | ⟨_, _ | ⟨_, _ | ⟨_, pre⟩⟩⟩⟩⟩ <;>
      simp [helloworld, program] at hp
  · intro ss label string rest hp
    rcases helloworld_ascii hp with rfl | rfl
    · decide
    · decide

/-- An `.ascii` without a label, at the end of the program. -/
def dangling : Program := program (.directive (.ascii (lit "lost"))) []

/-- The string of `dangling` never reaches `.data`. -/
theorem dangling_lost : ¬ ∀ (p : Program) e, p.assemble = .ok e → p.AsciiOnce e := by
  intro h
  have hdata := (h dangling _ rfl).data
  revert hdata
  decide

end RiscvAssembler
