import RiscvAssembler.Actions

/-!
# What one reduction does

One statement per kind of reduction, from which the invariants of later files are derived without
opening an action again.

* `emitted s i` and `pended s i` are the words that instruction `i` appends to `.text` in state `s`
  and the entries it adds to `unresolved_instructions`. `step_instruction`: an instruction that does
  not exit appends these, and leaves labels, symbol table, string table, data and section as they
  were (`Executed`).
* `step_kept`, `step_labels`: what the other reductions leave alone, and what they do to the labels.
* `step_text` and `step_unresolved` give the growth of the two lists for any reduction.
* `symbolExists_iff` and `labelExists_iff` say what a state knows, by the reductions that led to it.
* `Program.Pending` cuts a program's run open around a reference whose label has no address yet.
-/

namespace RiscvAssembler

open Runs ParserState

namespace ELF32

variable (e : ELF32)

theorem resolveLabel_of_some {l : Str} {addr : Word} (h : e.resolvedLabels.lookup l = some addr) :
    e.resolveLabel l = (e, 0, addr) := by
  simp [resolveLabel, h]

theorem resolveLabel_of_none {l : Str} (h : e.resolvedLabels.lookup l = none) :
    e.resolveLabel l =
      ({ e with unresolvedLabels := e.unresolvedLabels.insert l (hasher l) }, -1, hasher l) := by
  simp [resolveLabel, h]

/-- `label_exists` is membership in `resolved_labels`. -/
theorem labelExists_iff {l : Str} : e.labelExists l = true ↔ ∃ a, e.resolvedLabels.lookup l = some a := by
  simp [labelExists, ← AList.lookup_isSome, Option.isSome_iff_exists]

theorem labelExists_eq_false {l : Str} :
    e.labelExists l = false ↔ e.resolvedLabels.lookup l = none := by
  simp [labelExists, AList.lookup_eq_none]

theorem labelExists_congr {e' : ELF32} {l : Str}
    (h : e'.resolvedLabels.lookup l = e.resolvedLabels.lookup l) :
    e'.labelExists l = e.labelExists l := by
  rw [Bool.eq_iff_iff, labelExists_iff, labelExists_iff, h]

end ELF32

namespace ParserState

/-! ## Instructions -/

/-- The entry that a reference to a label without an address adds. -/
def pendingEntry (s : ParserState) (insnType : InstType) (label : Str) : UnresolvedInst32 :=
  let next := s.elf.getNextInsnNumber s.currentSection
  ⟨next.setWidth 32, (next - 1).setWidth 32, insnType, hasher label⟩

/-- The value that a branch passes as its immediate: the label's recorded index, or the hash of its
name. -/
def branchOffset (s : ParserState) (label : Str) : Word :=
  (s.elf.resolvedLabels.lookup label).getD (hasher label)

/-- The words an instruction appends to `.text`. -/
def emitted (s : ParserState) : Instruction → List Word
  | .rType op rd rs1 rs2 =>
    [emitRTypeInstruction 0 rs1.toUnsigned rs2.toUnsigned op.value.funct3 rd.toUnsigned op.value.op]
  | .iType op rd rs1 (.imm ival) =>
    [emitITypeInstruction rd.toUnsigned rs1.toUnsigned ((ival.signExtend 64 &&& 0xFFF).setWidth 32)
      op.value.funct3 op.value.op]
  | .iType op rd rs1 (.symbol symbol) =>
    if s.elf.symbolExists symbol.text then
      [emitITypeInstruction rd.toUnsigned rs1.toUnsigned
        (((s.elf.resolveSymbol symbol.text).offsetIdx.setWidth 64 * 4).setWidth 32)
        op.value.funct3 op.value.op]
    else []
  | .iType _ _ _ (.modifier _) => []
  | .loadStore op r imm base =>
    if isLoad op.value.op then
      [emitITypeInstruction r.toUnsigned base.toUnsigned imm op.value.funct3 op.value.op]
    else [emitSTypeInstruction r.toUnsigned base.toUnsigned imm op.value.funct3 op.value.op]
  | .branch op rs1 rs2 symbol =>
    [emitBTypeInstruction (s.branchOffset symbol.text) rs1.toUnsigned rs2.toUnsigned
      op.value.funct3 op.value.op]
  | .opcode op => [emitITypeInstruction 0 0 op.value.imm12 op.value.funct3 op.value.op]
  | .psuedo (.la _ _) => []
  | .psuedo (.jump symbol) =>
    match s.elf.resolvedLabels.lookup symbol.text with
    | some addr => [emitJTypeInstruction (addr <<< 1 &&& 0x1FFFFF) 0 jal32]
    | none => []
  | .psuedo (.mov rd rs) => [emitITypeInstruction rd.toUnsigned rs.toUnsigned 0 0x0 0x13]
  | .psuedo .ret => [emitITypeInstruction 0 0 1 0x0 jalr32]

/-- The entries an instruction adds to `unresolved_instructions`. -/
def pended (s : ParserState) (i : Instruction) : List UnresolvedInst32 :=
  match i.reference with
  | some (insnType, label) =>
    if s.elf.labelExists label then [] else [s.pendingEntry insnType label]
  | none => []

/-- The symbols after an instruction: a symbol operand that is not known yet is entered, unresolved.
-/
def symbolsAfter (s : ParserState) : Instruction → StrMap Sym
  | .iType _ _ _ (.symbol symbol) =>
    if s.elf.symbolExists symbol.text then s.elf.symbols
    else
      s.elf.symbols.insert symbol.text
        ⟨s.elf.getSectionIdx s.currentSection, unresolvedIdx.setWidth 32, unresolvedIdx, false, false⟩
  | _ => s.elf.symbols

/-- The object's part of what an instruction does, and all that it leaves alone. -/
structure Executed (s : ParserState) (i : Instruction) (t : ParserState) : Prop where
  text : t.elf.secText.data = s.elf.secText.data ++ emitted s i
  unresolved : t.elf.unresolvedInstructions = s.elf.unresolvedInstructions ++ pended s i
  symbols : t.elf.symbols = symbolsAfter s i
  resolvedLabels : t.elf.resolvedLabels = s.elf.resolvedLabels
  labelToAddr : t.elf.labelToAddr = s.elf.labelToAddr
  sectionToIdx : t.elf.sectionToIdx = s.elf.sectionToIdx
  secData : t.elf.secData = s.elf.secData
  strtab : t.elf.strtab = s.elf.strtab
  symtab : t.elf.symtab = s.elf.symtab
  tempValue : t.tempValue = s.tempValue
  currentSection : t.currentSection = s.currentSection

/-- Emitting a word is all that most instructions do. -/
theorem Executed.of_emit {s t : ParserState} {i : Instruction} {w : Word} (hw : emitted s i = [w])
    (hp : pended s i = []) (hs : symbolsAfter s i = s.elf.symbols)
    (ht : t.elf = s.elf.addToText w) (hv : t.tempValue = s.tempValue)
    (hc : t.currentSection = s.currentSection) : Executed s i t := by
  refine ⟨?_, ?_, ?_, ?_, ?_, ?_, ?_, ?_, ?_, hv, hc⟩ <;>
    simp [ht, hw, hp, hs, ELF32.addToText]

/-- **What an instruction does**, if it does not exit. -/
theorem step_instruction {s t : ParserState} {i : Instruction}
    (h : step s (.instruction i) = .ok t) : Executed s i t := by
  cases i with
  | rType op rd rs1 rs2 => cases h; exact .of_emit rfl rfl rfl rfl rfl rfl
  | iType op rd rs1 imm =>
      cases imm with
      | imm ival =>
          obtain ⟨-, rfl⟩ := ite_error_eq_ok.mp h
          exact .of_emit rfl rfl rfl rfl rfl rfl
      | modifier hi =>
          cases h
          exact ⟨(List.append_nil _).symm, (List.append_nil _).symm, rfl, rfl, rfl, rfl, rfl, rfl, rfl,
            rfl, rfl⟩
      | symbol symbol =>
          by_cases hs : s.elf.symbolExists symbol.text = true
          · cases (if_pos hs).symm.trans h
            exact .of_emit (if_pos hs) rfl (if_pos hs) rfl rfl rfl
          · cases (if_neg hs).symm.trans h
            have hem : emitted s (.iType op rd rs1 (.symbol symbol)) = [] := if_neg hs
            exact ⟨by simp [hem, ELF32.addSymbol, immediateKindAction], (List.append_nil _).symm,
              (if_neg hs).symm, rfl, rfl, rfl, rfl, rfl, rfl, rfl, rfl⟩
  | loadStore op r imm base =>
      simp only [step, instructionAction, loadStoreAction] at h
      split_ifs at h with hl <;> cases h
      · exact .of_emit (if_pos hl) rfl rfl rfl rfl rfl
      · exact .of_emit (if_neg hl) rfl rfl rfl rfl rfl
  | branch op rs1 rs2 symbol =>
      simp only [step, instructionAction, branchAction] at h
      cases hl : s.elf.resolvedLabels.lookup symbol.text with
      | some addr =>
          have hex := s.elf.labelExists_iff.mpr ⟨addr, hl⟩
          simp only [ELF32.resolveLabel_of_some _ hl] at h
          cases h
          exact .of_emit (by simp [emitted, branchOffset, hl]) (if_pos hex) rfl rfl rfl rfl
      | none =>
          have hex := s.elf.labelExists_eq_false.mpr hl
          simp only [ELF32.resolveLabel_of_none _ hl] at h
          cases h
          have ho : s.branchOffset symbol.text = hasher symbol.text := by simp [branchOffset, hl]
          have hp : pended s (.branch op rs1 rs2 symbol) = [s.pendingEntry .bType symbol.text] :=
            if_neg (by simp [hex])
          exact ⟨by simp only [emitted, ho]; rfl, by rw [hp]; rfl, rfl, rfl, rfl, rfl, rfl, rfl, rfl,
            rfl, rfl⟩
  | opcode op => cases h; exact .of_emit rfl rfl rfl rfl rfl rfl
  | psuedo p =>
      cases p with
      | la rd symbol =>
          cases h
          exact ⟨(List.append_nil _).symm, (List.append_nil _).symm, rfl, rfl, rfl, rfl, rfl, rfl, rfl,
            rfl, rfl⟩
      | jump symbol =>
          simp only [step, instructionAction, jumpAction] at h
          cases hl : s.elf.resolvedLabels.lookup symbol.text with
          | some addr =>
              have hex := s.elf.labelExists_iff.mpr ⟨addr, hl⟩
              simp only [ELF32.resolveLabel_of_some _ hl] at h
              rw [if_neg (by decide)] at h
              obtain ⟨-, rfl⟩ := ite_error_eq_ok.mp h
              exact .of_emit (by simp [emitted, hl]) (if_pos hex) rfl rfl rfl rfl
          | none =>
              have hex := s.elf.labelExists_eq_false.mpr hl
              simp only [ELF32.resolveLabel_of_none _ hl, if_true] at h
              cases h
              have hem : emitted s (.psuedo (.jump symbol)) = [] := by simp only [emitted, hl]
              have hp : pended s (.psuedo (.jump symbol)) = [s.pendingEntry .jType symbol.text] :=
                if_neg (by simp [hex])
              exact ⟨by rw [hem, List.append_nil]; rfl, by rw [hp]; rfl, rfl, rfl, rfl, rfl, rfl, rfl,
                rfl, rfl, rfl⟩
      | mov rd rs => cases h; exact .of_emit rfl rfl rfl rfl rfl rfl
      | ret => cases h; exact .of_emit rfl rfl rfl rfl rfl rfl

/-- After an instruction, `symbol_exists` holds of one more name if its operand is a symbol. -/
theorem symbolExists_instruction {s t : ParserState} {i : Instruction}
    (h : step s (.instruction i) = .ok t) (y : Str) :
    t.elf.symbolExists y = true ↔ s.elf.symbolExists y = true ∨ i.symbolOperand = some y := by
  have hsym := (step_instruction h).symbols
  cases i with
  | iType op rd rs1 imm =>
      cases imm with
      | symbol symbol =>
          simp only [symbolsAfter] at hsym
          split_ifs at hsym with hs
          · simp only [ELF32.symbolExists, hsym, Instruction.symbolOperand, Option.some.injEq] at hs ⊢
            exact ⟨Or.inl, fun hor => hor.elim id fun hy => hy ▸ hs⟩
          · simp only [ELF32.symbolExists, hsym, Instruction.symbolOperand, Option.some.injEq,
              decide_eq_true_eq, AList.mem_insert]
            exact or_comm.trans (or_congr Iff.rfl eq_comm)
      | imm ival => simp [ELF32.symbolExists, hsym, symbolsAfter, Instruction.symbolOperand]
      | modifier hi => simp [ELF32.symbolExists, hsym, symbolsAfter, Instruction.symbolOperand]
  | rType op rd rs1 rs2 => simp [ELF32.symbolExists, hsym, symbolsAfter, Instruction.symbolOperand]
  | loadStore op r imm base =>
      simp [ELF32.symbolExists, hsym, symbolsAfter, Instruction.symbolOperand]
  | branch op rs1 rs2 symbol =>
      simp [ELF32.symbolExists, hsym, symbolsAfter, Instruction.symbolOperand]
  | opcode op => simp [ELF32.symbolExists, hsym, symbolsAfter, Instruction.symbolOperand]
  | psuedo p => simp [ELF32.symbolExists, hsym, symbolsAfter, Instruction.symbolOperand]

end ParserState

/-! ## Labels and data -/

namespace ELF32

variable (e : ELF32) (l value sectionName : Str) (isGlobal : Bool)

/-- `init_label` on a name that has an address does nothing. -/
theorem initLabel_of_exists {l : Str} (h : e.labelExists l = true) :
    e.initLabel l isGlobal sectionName = e := by
  simp [initLabel, h]

/-- `init_label` on a new name records the last index of `.text` for it and for its hash. -/
theorem initLabel_of_new {l : Str} (h : e.labelExists l = false) :
    (e.initLabel l isGlobal sectionName).resolvedLabels =
        e.resolvedLabels.insert l (BitVec.ofNat 32 e.secText.lastIndex) ∧
      (e.initLabel l isGlobal sectionName).labelToAddr =
        e.labelToAddr.insert (hasher l) (BitVec.ofNat 32 e.secText.lastIndex) := by
  simp [initLabel, h, storeRegularString]

@[simp] theorem secText_initLabel : (e.initLabel l isGlobal sectionName).secText = e.secText := by
  unfold initLabel
  split_ifs <;> rfl

@[simp] theorem unresolvedInstructions_initLabel :
    (e.initLabel l isGlobal sectionName).unresolvedInstructions = e.unresolvedInstructions := by
  unfold initLabel
  split_ifs <;> rfl

@[simp] theorem symbols_initLabel : (e.initLabel l isGlobal sectionName).symbols = e.symbols := by
  unfold initLabel
  split_ifs <;> rfl

/-- `update_label_visibility` is `init_label` in `.text`. -/
@[simp] theorem updateLabelVisibility_eq :
    e.updateLabelVisibility l isGlobal = e.initLabel l isGlobal (str ".text") := by
  unfold updateLabelVisibility
  split_ifs with h
  · rw [e.initLabel_of_exists _ _ h]
  · rfl

/-- What data does not touch. -/
theorem addProgramData_kept :
    (e.addProgramData l value sectionName).secText = e.secText ∧
      (e.addProgramData l value sectionName).unresolvedInstructions = e.unresolvedInstructions ∧
      (e.addProgramData l value sectionName).symbols = e.symbols ∧
      (e.addProgramData l value sectionName).resolvedLabels = e.resolvedLabels ∧
      (e.addProgramData l value sectionName).labelToAddr = e.labelToAddr := by
  simp only [addProgramData, storeRegularString, sectionToIdxAt]
  split <;> exact ⟨rfl, rfl, rfl, rfl, rfl⟩

end ELF32

namespace ParserState

/-- The object after a reduction other than an instruction has the code, the pending references and
the symbols that it had before. -/
theorem step_kept {s t : ParserState} {r : Reduction} (h : step s r = .ok t)
    (hr : ∀ i, r ≠ .instruction i) :
    t.elf.secText = s.elf.secText ∧
      t.elf.unresolvedInstructions = s.elf.unresolvedInstructions ∧
      t.elf.symbols = s.elf.symbols := by
  cases r with
  | instruction i => exact absurd rfl (hr i)
  | labelInstructions label => cases h; simp [labelInstructionsAction]
  | labelDirective label =>
      cases h
      simp only [labelDirectiveAction]
      split_ifs
      · obtain ⟨h1, h2, h3, -, -⟩ := s.elf.addProgramData_kept label.text s.tempValue s.currentSection
        exact ⟨h1, h2, h3⟩
      · exact ⟨rfl, rfl, rfl⟩
  | directive d => cases h; cases d <;> simp [directiveAction]

/-- The words a reduction appends to `.text`. -/
def emittedBy (s : ParserState) : Reduction → List Word
  | .instruction i => emitted s i
  | _ => []

/-- The entries a reduction adds to `unresolved_instructions`. -/
def pendedBy (s : ParserState) : Reduction → List UnresolvedInst32
  | .instruction i => pended s i
  | _ => []

theorem step_text {s t : ParserState} {r : Reduction} (h : step s r = .ok t) :
    t.elf.secText.data = s.elf.secText.data ++ emittedBy s r := by
  cases r with
  | instruction i => exact (step_instruction h).text
  | _ => rw [(step_kept h (by simp)).1]; exact (List.append_nil _).symm

theorem step_unresolved {s t : ParserState} {r : Reduction} (h : step s r = .ok t) :
    t.elf.unresolvedInstructions = s.elf.unresolvedInstructions ++ pendedBy s r := by
  cases r with
  | instruction i => exact (step_instruction h).unresolved
  | _ => rw [(step_kept h (by simp)).2.1]; exact (List.append_nil _).symm

/-- `.text` only grows. -/
theorem run_text {s u : ParserState} {rs : List Reduction} (h : run step s rs = .ok u) :
    s.elf.secText.data <+: u.elf.secText.data :=
  run_rel (fun s t => s.elf.secText.data <+: t.elf.secText.data) (fun _ => List.prefix_rfl)
    (fun _ _ _ => List.IsPrefix.trans) (fun _ _ _ ht => ⟨_, (step_text ht).symm⟩) h

/-- `unresolved_instructions` only grows. -/
theorem run_unresolved {s u : ParserState} {rs : List Reduction} (h : run step s rs = .ok u) :
    s.elf.unresolvedInstructions <+: u.elf.unresolvedInstructions :=
  run_rel (fun s t => s.elf.unresolvedInstructions <+: t.elf.unresolvedInstructions)
    (fun _ => List.prefix_rfl) (fun _ _ _ => List.IsPrefix.trans)
    (fun _ _ _ ht => ⟨_, (step_unresolved ht).symm⟩) h

/-- The address that a label gets when it is recorded in this state. -/
def labelAddr (s : ParserState) : Word := BitVec.ofNat 32 s.elf.secText.lastIndex

/-- **What a reduction does to the labels**: one that records a new label enters it in both maps,
and any other leaves them as they are. -/
theorem step_labels {s t : ParserState} {r : Reduction} (h : step s r = .ok t) :
    (∃ l, r.records = some l ∧ s.elf.labelExists l = false ∧
        t.elf.resolvedLabels = s.elf.resolvedLabels.insert l s.labelAddr ∧
        t.elf.labelToAddr = s.elf.labelToAddr.insert (hasher l) s.labelAddr) ∨
      (∀ l, r.records = some l → s.elf.labelExists l = true) ∧
        t.elf.resolvedLabels = s.elf.resolvedLabels ∧ t.elf.labelToAddr = s.elf.labelToAddr := by
  have hlabel : ∀ l sectionName isGlobal, r.records = some l →
      t.elf = s.elf.initLabel l isGlobal sectionName →
      (∃ l, r.records = some l ∧ s.elf.labelExists l = false ∧
        t.elf.resolvedLabels = s.elf.resolvedLabels.insert l s.labelAddr ∧
        t.elf.labelToAddr = s.elf.labelToAddr.insert (hasher l) s.labelAddr) ∨
      (∀ l, r.records = some l → s.elf.labelExists l = true) ∧
        t.elf.resolvedLabels = s.elf.resolvedLabels ∧ t.elf.labelToAddr = s.elf.labelToAddr := by
    intro l sectionName isGlobal hr ht
    cases hex : s.elf.labelExists l with
    | true =>
        rw [ht, s.elf.initLabel_of_exists _ _ hex]
        exact Or.inr ⟨fun l' hl' => Option.some.inj (hr.symm.trans hl') ▸ hex, rfl, rfl⟩
    | false =>
        rw [ht]
        exact Or.inl ⟨l, hr, hex, s.elf.initLabel_of_new _ _ hex⟩
  cases r with
  | instruction i =>
      have hi := step_instruction h
      exact Or.inr ⟨by simp [Reduction.records], hi.resolvedLabels, hi.labelToAddr⟩
  | labelInstructions label =>
      cases h
      exact hlabel label.text s.currentSection false rfl rfl
  | labelDirective label =>
      cases h
      refine Or.inr ⟨by simp [Reduction.records], ?_⟩
      simp only [labelDirectiveAction]
      split_ifs
      · exact (s.elf.addProgramData_kept label.text s.tempValue s.currentSection).2.2.2
      · exact ⟨rfl, rfl⟩
  | directive d =>
      cases h
      cases d with
      | global symbol =>
          exact hlabel symbol.text (str ".text") true rfl (s.elf.updateLabelVisibility_eq _ _)
      | _ => exact Or.inr ⟨by simp [Reduction.records], rfl, rfl⟩

/-- After a reduction, `symbol_exists` holds of the symbol it uses as an immediate and of those it
held of before. -/
theorem step_symbolExists {s t : ParserState} {r : Reduction} (h : step s r = .ok t) (y : Str) :
    t.elf.symbolExists y = true ↔ s.elf.symbolExists y = true ∨ r.symbolOperand = some y := by
  cases r with
  | instruction i => exact symbolExists_instruction h y
  | _ => simp [ELF32.symbolExists, (step_kept h (by simp)).2.2, Reduction.symbolOperand]

/-! ## Histories -/

theorem symbolExists_start (y : Str) : start.elf.symbolExists y = false := by
  have hsym : start.elf.symbols = ∅ := rfl
  simp [ELF32.symbolExists, hsym]

theorem labelExists_start (l : Str) : start.elf.labelExists l = false := by
  have hlab : start.elf.resolvedLabels = ∅ := rfl
  simp [ELF32.labelExists, hlab]

/-- The names that `symbol_exists` holds of are the symbols used as immediates so far. -/
theorem symbolExists_iff {rs : List Reduction} {u : ParserState} (h : run step start rs = .ok u)
    (y : Str) : u.elf.symbolExists y = true ↔ ∃ r ∈ rs, r.symbolOperand = some y := by
  refine run_history (fun rs u => u.elf.symbolExists y = true ↔ ∃ r ∈ rs, r.symbolOperand = some y)
    (by simp [symbolExists_start]) ?_ h
  intro pre s r t _ ih hstep
  rw [step_symbolExists hstep, ih]
  simp [or_and_right, exists_or]

/-- After a reduction, the labels that have an address are one more if it asks to record one. -/
theorem step_labelExists {s t : ParserState} {r : Reduction} (h : step s r = .ok t) (l : Str) :
    t.elf.labelExists l = true ↔ s.elf.labelExists l = true ∨ r.records = some l := by
  rcases step_labels h with ⟨l', hr, -, hres, -⟩ | ⟨hold, hres, -⟩
  · simp only [ELF32.labelExists, hres, decide_eq_true_eq, AList.mem_insert, hr,
      Option.some.injEq]
    exact or_comm.trans (or_congr Iff.rfl eq_comm)
  · simp only [ELF32.labelExists, hres] at hold ⊢
    exact ⟨Or.inl, fun hor => hor.elim id (hold l)⟩

/-- The labels that have an address are those that a reduction has asked to record so far. -/
theorem labelExists_iff {rs : List Reduction} {u : ParserState} (h : run step start rs = .ok u)
    (l : Str) : u.elf.labelExists l = true ↔ ∃ r ∈ rs, r.records = some l := by
  refine run_history (fun rs u => u.elf.labelExists l = true ↔ ∃ r ∈ rs, r.records = some l)
    (by simp [labelExists_start]) ?_ h
  intro pre s r t _ ih hstep
  rw [step_labelExists hstep, ih]
  simp [or_and_right, exists_or]

/-- A label that has an address keeps it. -/
theorem run_lookup {s u : ParserState} {rs : List Reduction} {l : Str} {addr : Word}
    (h : run step s rs = .ok u) (hl : s.elf.resolvedLabels.lookup l = some addr) :
    u.elf.resolvedLabels.lookup l = some addr := by
  refine run_invariant (fun s => s.elf.resolvedLabels.lookup l = some addr)
    ?_ hl h
  intro s r t hs hstep
  rcases step_labels hstep with ⟨l', -, hnew, hres, -⟩ | ⟨-, hres, -⟩
  · have hne : l ≠ l' := by
      rintro rfl
      rw [s.elf.labelExists_eq_false] at hnew
      rw [hnew] at hs
      cases hs
    rw [hres, AList.lookup_insert_ne hne, hs]
  · rw [hres, hs]

end ParserState

/-! ## Pending references -/

/-- In state `s`, after the reductions `pre`, the program's parser comes to instruction `i`, which
needs the address of `label` before that has one; `u` is the state at the end. -/
structure Program.Pending (p : Program) (pre : List Reduction) (i : Instruction)
    (insnType : InstType) (label : Str) (s u : ParserState) : Prop where
  occurs : ∃ post, p.reductions = pre ++ .instruction i :: post
  refers : i.reference = some (insnType, label)
  before : run step start pre = .ok s
  unknown : s.elf.labelExists label = false
  after : p.parse = .ok u

namespace Program.Pending

variable {p : Program} {pre : List Reduction} {i : Instruction} {insnType : InstType} {label : Str}
  {s u : ParserState}

/-- The run, cut open around the reference. -/
theorem split (h : p.Pending pre i insnType label s u) :
    ∃ t post, p.reductions = pre ++ .instruction i :: post ∧
      step s (.instruction i) = .ok t ∧ run step t post = .ok u := by
  obtain ⟨post, hpost⟩ := h.occurs
  have hrun : run step start (pre ++ .instruction i :: post) = .ok u := hpost ▸ h.after
  obtain ⟨t, ht, hu⟩ := run_at h.before hrun
  exact ⟨t, post, hpost, ht, hu⟩

/-- The entry that the reference adds. -/
theorem pended_eq (h : p.Pending pre i insnType label s u) :
    pended s i = [s.pendingEntry insnType label] := by
  simp only [pended, h.refers, h.unknown]
  rfl

/-- The pass meets the entry after those of the references before it. -/
theorem unresolved (h : p.Pending pre i insnType label s u) :
    ∃ entries, u.elf.unresolvedInstructions =
      s.elf.unresolvedInstructions ++ s.pendingEntry insnType label :: entries := by
  obtain ⟨t, post, -, ht, hu⟩ := h.split
  obtain ⟨entries, hentries⟩ := run_unresolved hu
  rw [(step_instruction ht).unresolved, h.pended_eq] at hentries
  exact ⟨entries, by simp [← hentries]⟩

end Program.Pending

end RiscvAssembler
