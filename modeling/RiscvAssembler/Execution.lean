import RiscvAssembler.ControlFlow
import RiscvAssembler.InstructionWords
import RiscvAssembler.Lib.Hart
import RiscvAssembler.Main
import RiscvAssembler.SymbolTable

/-!
# Running the object code

What a source program means when it is run, and that the words of its object file do that.

* `Program.sourceStep` is the source program as a machine: it is at an instruction of the source, counted
  from the start, the instructions have their meaning in terms of whole registers and of the literals
  as they are written (`Instruction.effect`), and a branch goes to the block of its label
  (`Program.position`).
* `Program.Translated` is the class of programs for which that comes out right: accepted, all code
  under `.section .text`, every mnemonic one that the tables get right (`Instruction.Executable`),
  and every reference one that fits (`Program.AllFit`).
* `Translated.word`: word `k` of the final `.text` is the instruction `k` of the source.
* `main_executes`: what `main` writes has a `.text` that, loaded into read-only memory, runs in lock
  step with the source.
-/

namespace RiscvAssembler

open Runs ParserState Bytes
open Rv32i (Context Env Hart place Executes)
open Scanner (tokens)

/-! ## The source program as a machine -/

/-- The instructions among the reductions. -/
def codeOf (rs : List Reduction) : List Instruction :=
  rs.filterMap fun
    | .instruction i => some i
    | _ => none

/-- What a load or a store with the given data register and address leaves. -/
def OpcodeLoadStore.effect (env : Env) (c : Context) (r : Reg) (a : Word) :
    OpcodeLoadStore → Option Context
  | .lb => some (c.write r (Rv32i.LoadOp.lb.value c a))
  | .lh => some (c.write r (Rv32i.LoadOp.lh.value c a))
  | .lw => some (c.write r (Rv32i.LoadOp.lw.value c a))
  | .lbu => some (c.write r (Rv32i.LoadOp.lbu.value c a))
  | .lhu => some (c.write r (Rv32i.LoadOp.lhu.value c a))
  | .sb => env.store c a 1 (c.read r)
  | .sh => env.store c a 2 (c.read r)
  | .sw => env.store c a 4 (c.read r)

namespace Instruction

/-- What an instruction of the source leaves in the registers and the memory. There is nothing for a
symbol, whose address the source does not say, and for `ret`, which leaves the program. -/
def effect (env : Env) (c : Context) : Instruction → Option Context
  | .rType op rd rs1 rs2 =>
    op.registerOp.map fun op => c.write rd (op.value (c.read rs1) (c.read rs2))
  | .iType op rd rs1 (.imm ival) => some (c.write rd (op.mnemonic.value (c.read rs1) ival))
  | .loadStore op r imm base => op.effect env c r (c.read base + imm)
  | .branch _ _ _ _ => some c
  | .opcode op => if op = .ecall then env.call c else none
  | .psuedo (.jump _) => some c
  | .psuedo (.mov rd rs) => some (c.write rd (c.read rs))
  | _ => none

/-- Where the source goes on after instruction `k`. -/
def next (position : Str → Option ℕ) (k : ℕ) (c : Context) : Instruction → Option ℕ
  | .branch .beq rs1 rs2 label =>
    if c.read rs1 = c.read rs2 then position label.text else some (k + 1)
  | .psuedo (.jump label) => position label.text
  | _ => some (k + 1)

/-- A statement that the assembler gets right, if its reference fits. -/
def Executable : Instruction → Prop
  | .rType op _ _ _ => op = .add
  | .iType op _ _ (.imm _) => op = .addi ∨ op = .slti ∨ op = .xori
  | .loadStore _ _ imm _ => -2048 ≤ imm.toInt ∧ imm.toInt ≤ 2047
  | .branch _ _ _ _ => True
  | .opcode op => op = .ecall
  | .psuedo (.jump _) => True
  | .psuedo (.mov _ _) => True
  | _ => False

end Instruction

namespace Program

/-- The instructions of a program, in source order. -/
def code (p : Program) : List Instruction := codeOf p.reductions

/-- The instruction that the first block of a label starts with, counted from the start. -/
def position (p : Program) (label : Str) : Option ℕ :=
  (p.statements.findIdx? (Statement.attaches label)).map fun j =>
    (codeOf (reductionsOf (p.statements.take j))).length

/-- One step of the source program, from an instruction and what it works on. -/
def sourceStep (p : Program) (env : Env) (s : ℕ × Context) : Option (ℕ × Context) :=
  p.code[s.1]?.bind fun i =>
    (i.effect env s.2).bind fun c => (i.next p.position s.1 s.2).map fun k => (k, c)

/-- The programs that are translated as they are meant. -/
structure Translated (p : Program) (u : ParserState) : Prop where
  accepted : p.parse = .ok u
  inText : p.CodeInText
  executable : ∀ i ∈ p.code, i.Executable
  defined : p.ReferencesDefined
  inRange : p.DisplacementsInRange
  fits : p.AllFit u

end Program

/-! ## Instructions and their words -/

/-- A literal in range is what its twelve bits extend to. -/
theorem signExtend_setWidth {imm : BitVec 32} (h : -2048 ≤ imm.toInt ∧ imm.toInt ≤ 2047) :
    (imm.setWidth 12).signExtend 32 = imm := by
  apply BitVec.eq_of_toInt_eq
  rw [BitVec.toInt_signExtend_of_le (by decide), (toInt_setWidth_eq_iff imm).mpr h]

@[inherit_doc signExtend_setWidth]
theorem signExtend_ofInt {imm : BitVec 32} (h : -2048 ≤ imm.toInt ∧ imm.toInt ≤ 2047) :
    (BitVec.ofInt 12 imm.toInt).signExtend 32 = imm := by
  apply BitVec.eq_of_toInt_eq
  rw [BitVec.toInt_signExtend_of_le (by decide), BitVec.toInt_ofInt,
    Int.bmod_eq_of_le (by omega) (by omega)]

/-- What the word of an instruction without a label decodes to does what the source means. -/
theorem decode_executable {s t : ParserState} {i : Instruction} (hi : i.Executable)
    (href : i.reference = none) (ht : ParserState.step s (.instruction i) = .ok t) :
    ∃ w instr, emitted s i = [w] ∧ Rv32i.decode w = some instr ∧
      (∀ env pc c, instr.effect env pc c = i.effect env c) ∧ ∀ pc c, instr.next pc c = pc + 4 := by
  cases i with
  | rType op rd rs1 rs2 =>
      obtain rfl : op = .add := hi
      exact ⟨_, .register .add rd rs1 rs2, rfl, Instruction.decode_rType .add rd rs1 rs2 rfl,
        fun _ _ _ => rfl, fun _ _ => rfl⟩
  | iType op rd rs1 imm =>
      cases imm with
      | modifier symbol => exact hi.elim
      | symbol symbol => exact hi.elim
      | imm ival =>
          obtain ⟨hrange, -⟩ := ite_error_eq_ok.mp ht
          have hext := signExtend_ofInt ((isWithinRange12b_iff ival).mp hrange)
          have hmeans : ∀ w, emitted s (.iType op rd rs1 (.imm ival)) = [w] →
              Rv32i.decode w = some (.immediate op.mnemonic rd rs1 (BitVec.ofInt 12 ival.toInt)) →
              ∃ w instr, emitted s (.iType op rd rs1 (.imm ival)) = [w] ∧
                Rv32i.decode w = some instr ∧
                (∀ env pc c, instr.effect env pc c = Instruction.effect env c (.iType op rd rs1 (.imm ival))) ∧
                ∀ pc c, instr.next pc c = pc + 4 := by
            intro w hw hdec
            refine ⟨w, _, hw, hdec, fun _ _ c => ?_, fun _ _ => rfl⟩
            simp only [Rv32i.Instr.effect, hext, Instruction.effect]
          rcases hi with rfl | rfl | rfl
          · exact hmeans _ rfl (Instruction.decode_iType rd rs1 ival 0 .addi (by simp))
          · exact hmeans _ rfl (Instruction.decode_iType rd rs1 ival 2 .slti (by simp))
          · exact hmeans _ rfl (Instruction.decode_iType rd rs1 ival 4 .xori (by simp))
  | loadStore op r imm base =>
      obtain ⟨w, hw, hdec⟩ := emitted_loadStore s op r imm base
      refine ⟨w, _, hw, hdec, fun env pc c => ?_, fun pc c => by cases op <;> rfl⟩
      cases op <;>
        simp only [OpcodeLoadStore.meant, Rv32i.Instr.effect, signExtend_setWidth hi] <;> rfl
  | branch op rs1 rs2 symbol => cases href
  | opcode op =>
      obtain rfl : op = .ecall := hi
      exact ⟨_, .ecall, rfl, by decide, fun _ _ _ => rfl, fun _ _ => rfl⟩
  | psuedo ps =>
      cases ps with
      | la rd symbol => exact hi.elim
      | jump symbol => cases href
      | mov rd rs =>
          refine ⟨_, .immediate .addi rd rs 0, rfl, ?_, fun _ _ c => ?_, fun _ _ => rfl⟩
          · simp [Rv32i.decode, Rv32i.decodeImmediate, Reg.toUnsigned]
          · simp [Rv32i.Instr.effect, Rv32i.ImmOp.value, Instruction.effect]
      | ret => exact hi.elim

/-- An instruction without a label adds no entry. -/
theorem pended_of_plain (s : ParserState) {i : Instruction} (href : i.reference = none) :
    pended s i = [] := by
  simp only [pended, href]

/-! ## Positions -/

theorem codeOf_append (rs rs' : List Reduction) : codeOf (rs ++ rs') = codeOf rs ++ codeOf rs' :=
  List.filterMap_append

namespace Program.Translated

variable {p : Program} {u : ParserState}

/-- A reference of such a program is a site. -/
theorem exists_site (h : p.Translated u) {pre post : List Reduction} {i : Instruction}
    {insnType : InstType} {l : Str} {s : ParserState} (hsplit : p.reductions = pre ++ .instruction i :: post)
    (hs : run ParserState.step start pre = .ok s) (href : i.reference = some (insnType, l)) :
    ∃ j label v, p.statements.findIdx? (Statement.attaches l) = some j ∧ label.text = l ∧
      p.Site i label s v ∧
      run ParserState.step start (reductionsOf (p.statements.take j)) = .ok v := by
  obtain ⟨label, b, hmem, hlabel⟩ := h.defined i insnType l (by simp [hsplit]) href
  have hany : p.statements.any (Statement.attaches l) = true :=
    List.any_eq_true.mpr ⟨_, hmem, by simpa [Statement.attaches] using hlabel⟩
  rw [← List.findIdx?_isSome, Option.isSome_iff_exists] at hany
  obtain ⟨j, hj⟩ := hany
  obtain ⟨hlt, hattaches, -⟩ := List.findIdx?_eq_some_iff_getElem.mp hj
  have hss : p.statements = p.statements.take j ++ p.statements[j] :: p.statements.drop (j + 1) := by
    rw [List.getElem_cons_drop, List.take_append_drop]
  have hrun : run ParserState.step start p.reductions = .ok u := h.accepted
  rw [reductions, hss, reductionsOf_append] at hrun
  obtain ⟨v, hv⟩ := run_prefix_ok hrun
  cases hst : p.statements[j] with
  | labelInstructions label b =>
      rw [hst] at hattaches hss
      have hl : label.text = l := by simpa [Statement.attaches] using hattaches
      exact ⟨j, label, v, hj, hl, ⟨⟨insnType, hl ▸ href⟩, ⟨pre, post, hsplit, hs⟩, ⟨_, b, _, hss, hv⟩⟩, hv⟩
  | labelDirective label d =>
      rw [hst] at hattaches
      cases hattaches
  | directive d =>
      rw [hst] at hattaches
      cases hattaches

/-- In such a program each instruction has one word. -/
theorem length_emitted (h : p.Translated u) {pre post : List Reduction} {i : Instruction}
    {s t : ParserState} (hsplit : p.reductions = pre ++ .instruction i :: post)
    (hs : run ParserState.step start pre = .ok s) (ht : ParserState.step s (.instruction i) = .ok t) :
    (emitted s i).length = 1 := by
  cases href : i.reference with
  | none =>
      have hmem : i ∈ p.code := by simp [code, codeOf, hsplit]
      obtain ⟨w, -, hw, -⟩ := decode_executable (h.executable i hmem) href ht
      rw [hw]
      rfl
  | some x =>
      obtain ⟨insnType, l⟩ := x
      cases hl : s.elf.resolvedLabels.lookup l with
      | none =>
          obtain ⟨-, label, v, -, rfl, hsite, -⟩ := h.exists_site hsplit hs href
          obtain ⟨rfl, -⟩ := (siteFits_of_unknown hl).mp (h.fits i insnType label s v hsite href)
          rcases length_emitted_reference href (s.elf.labelExists_eq_false.mpr hl) with ⟨-, hone⟩ | ⟨hj, -⟩
          · exact hone
          · cases hj
      | some addr =>
          unfold Instruction.reference at href
          split at href
          · rfl
          · cases href
            rw [emitted_jump_of_some hl]
            rfl
          · cases href

/-- The index of the next word is the number of instructions that the parser has met. -/
theorem length_text (h : p.Translated u) {pre post : List Reduction} {s : ParserState}
    (hsplit : p.reductions = pre ++ post) (hs : run ParserState.step start pre = .ok s) :
    s.elf.secText.data.length = (codeOf pre).length := by
  refine run_history (fun rs s => ∀ post, p.reductions = rs ++ post →
    s.elf.secText.data.length = (codeOf rs).length) ?_ ?_ hs post hsplit
  · intro _ _
    rfl
  · intro rs s r t hs ih hstep post hsplit
    rw [List.append_assoc] at hsplit
    rw [step_text hstep, List.length_append, ih _ hsplit, codeOf_append, List.length_append]
    cases r with
    | instruction i => rw [emittedBy, h.length_emitted hsplit hs hstep]; rfl
    | _ => rfl

/-- All pending entries of such a program aim at their own words. -/
theorem pendingInText (h : p.Translated u) : p.PendingInText u := by
  intro pre i insnType l s hp
  obtain ⟨post, hsplit⟩ := hp.occurs
  obtain ⟨-, label, v, -, rfl, hsite, -⟩ := h.exists_site hsplit hp.before hp.refers
  have hnone := s.elf.labelExists_eq_false.mp hp.unknown
  have hfits := h.fits i insnType label s v hsite hp.refers
  obtain ⟨rfl, hlt, -⟩ := (siteFits_of_unknown hnone).mp hfits
  exact ⟨rfl, Or.inl ⟨h.inText pre i post s hsplit hp.before, hlt⟩⟩

/-- The final word of a branch names its registers: the right way round if a fixup has put in the
displacement, else the other way round. -/
theorem branch_word (h : p.Translated u) {pre post : List Reduction} {rs1 rs2 : Reg} {label : Symbol}
    {s : ParserState} (hsplit : p.reductions = pre ++ .instruction (.branch .beq rs1 rs2 label) :: post)
    (hs : run ParserState.step start pre = .ok s) :
    ∃ w, u.elf.resolveUnresolvedInstructions.secText.data[s.elf.secText.data.length]? = some w ∧
      Rv32i.opcode w = 0x63 ∧ Rv32i.funct3 w = 0 ∧
      (Rv32i.rs1 w = rs1 ∧ Rv32i.rs2 w = rs2 ∨ Rv32i.rs1 w = rs2 ∧ Rv32i.rs2 w = rs1) := by
  have hfields : ∀ addr, Rv32i.opcode (emitBTypeInstruction addr rs1.toUnsigned rs2.toUnsigned 0 0x63) =
        0x63 ∧
      Rv32i.funct3 (emitBTypeInstruction addr rs1.toUnsigned rs2.toUnsigned 0 0x63) = 0 ∧
      Rv32i.rs1 (emitBTypeInstruction addr rs1.toUnsigned rs2.toUnsigned 0 0x63) = rs2 ∧
      Rv32i.rs2 (emitBTypeInstruction addr rs1.toUnsigned rs2.toUnsigned 0 0x63) = rs1 := by
    intro addr
    rw [opcode_emitBType, funct3_emitBType, rs1_emitBType, rs2_emitBType]
    simp [Reg.toUnsigned]
  have hrun : run ParserState.step start p.reductions = .ok u := h.accepted
  obtain ⟨t, ht, -⟩ := run_at hs (hsplit ▸ hrun)
  cases hl : s.elf.resolvedLabels.lookup label.text with
  | some addr =>
      have hw := emitted_branch_of_some hl rs1 rs2
      obtain ⟨ho, hf, hregs⟩ := hfields addr
      exact ⟨_, final_of_silent h.pendingInText h.accepted hsplit hs ht (pended_of_known rfl hl) hw, ho, hf,
        Or.inr hregs⟩
  | none =>
      have hp : p.Pending pre (.branch .beq rs1 rs2 label) .bType label.text s u :=
        ⟨⟨post, hsplit⟩, rfl, hs, s.elf.labelExists_eq_false.mpr hl, h.accepted⟩
      obtain ⟨w, hw, hfinal⟩ := final_of_pending h.pendingInText h.accepted hp
        (emitted_branch_of_none hl rs1 rs2)
      obtain ⟨ho, hf, h1, h2, -⟩ := fields_of_patched_bType hw
      obtain ⟨ho', hf', h1', h2'⟩ := hfields (hasher label.text)
      exact ⟨w, hfinal, ho.trans ho', hf.trans hf', Or.inl ⟨h1.trans h2', h2.trans h1'⟩⟩

end Program.Translated

/-! ## Lock step -/

theorem exists_of_codeOf {rs : List Reduction} {k : ℕ} {i : Instruction}
    (h : (codeOf rs)[k]? = some i) :
    ∃ pre post, rs = pre ++ .instruction i :: post ∧ (codeOf pre).length = k := by
  induction rs generalizing k with
  | nil => cases h
  | cons r rs ih =>
      have hcons : codeOf (r :: rs) = codeOf [r] ++ codeOf rs := codeOf_append [r] rs
      cases r with
      | instruction i' =>
          rw [hcons] at h
          cases k with
          | zero =>
              obtain rfl : i' = i := by simpa [codeOf] using h
              exact ⟨[], rs, rfl, rfl⟩
          | succ k =>
              obtain ⟨pre, post, rfl, hk⟩ := ih (by simpa [codeOf] using h)
              exact ⟨.instruction i' :: pre, post, rfl, by simpa [codeOf] using hk⟩
      | _ =>
          obtain ⟨pre, post, rfl, hk⟩ := ih h
          exact ⟨_ :: pre, post, rfl, hk⟩

theorem next_of_plain {i : Instruction} (href : i.reference = none) (position : Str → Option ℕ) (k : ℕ)
    (c : Context) : i.next position k c = some (k + 1) := by
  cases i with
  | branch op rs1 rs2 label => cases href
  | psuedo ps =>
      cases ps with
      | jump label => cases href
      | _ => rfl
  | _ => rfl

/-- The address of the instruction behind instruction `k`. -/
theorem pc_succ (base : Word) (k : ℕ) (c c' : Context) :
    (place base (k, c)).pc + 4 = (place base (k + 1, c')).pc := by
  simp only [place]
  rw [Nat.mul_add, BitVec.ofNat_add, BitVec.add_assoc]
  rfl

/-- The address that a displacement leads to. -/
theorem pc_displaced {w k t : ℕ} {imm : BitVec w} (h : imm.toInt = 4 * (t - k : ℤ)) (base : Word)
    (c c' : Context) : (place base (k, c)).pc + imm.signExtend 32 = (place base (t, c')).pc := by
  have hsum : (4 * k : ℕ) + imm.toInt = (4 * t : ℕ) := by
    rw [h]
    push_cast
    ring
  simp only [place]
  rw [BitVec.add_assoc, BitVec.signExtend, ← BitVec.ofInt_natCast, ← BitVec.ofInt_natCast,
    ← BitVec.ofInt_add, hsum]

namespace Program.Translated

variable {p : Program} {u : ParserState}

/-- A word does what its statement means if its effect is that of the statement, and it goes where the
statement goes. -/
theorem executes {k : ℕ} {i : Instruction} (hi : p.code[k]? = some i) {env : Env} {base : Word} {c : Context}
    {instr : Rv32i.Instr} (heff : instr.effect env (place base (k, c)).pc c = i.effect env c)
    (hnext : ∃ k' ≤ p.code.length, i.next p.position k c = some k' ∧
      instr.next (place base (k, c)).pc c = (place base (k', c)).pc) :
    Executes env base p.code.length instr (p.sourceStep env) k c := by
  obtain ⟨k', hle, hgo, htarget⟩ := hnext
  have hstep : p.sourceStep env (k, c) = (i.effect env c).map fun c => (k', c) := by
    simp only [Program.sourceStep, hi, Option.bind_some, hgo, Option.map_some]
    exact Option.map_eq_bind.symm
  unfold Executes
  rw [heff, hstep]
  cases i.effect env c with
  | none => rfl
  | some c' => exact ⟨k', hle, rfl, htarget⟩

/-- The site of a reference: the block of its label is at the label's position, and the final word
shows the displacement to it. -/
theorem reference (h : p.Translated u) {pre post : List Reduction} {i : Instruction} {insnType : InstType}
    {l : Str} {s : ParserState} (hsplit : p.reductions = pre ++ .instruction i :: post)
    (hs : run ParserState.step start pre = .ok s) (href : i.reference = some (insnType, l)) :
    ∃ k' ≤ p.code.length, p.position l = some k' ∧
      ∃ w, u.elf.resolveUnresolvedInstructions.secText.data[s.elf.secText.data.length]? = some w ∧
        DecodesTo insnType w (4 * (k' - s.elf.secText.data.length)) := by
  obtain ⟨j, label, v, hj, rfl, hsite, hv⟩ := h.exists_site hsplit hs href
  have hss : p.reductions = reductionsOf (p.statements.take j) ++ reductionsOf (p.statements.drop j) := by
    rw [reductions, ← reductionsOf_append, List.take_append_drop]
  have hlen := h.length_text hss hv
  refine ⟨v.elf.secText.data.length, ?_, ?_, ?_⟩
  · rw [hlen, code, hss, codeOf_append, List.length_append]
    exact Nat.le_add_right _ _
  · rw [position, hj, Option.map_some, hlen]
  · have hsiteiff := site_iff h.pendingInText h.accepted hsite href (h.inRange i insnType label s v hsite href)
    exact (hsiteiff.mpr (h.fits i insnType label s v hsite href)).2

/-- A word of an instruction of such a program. -/
def IsWord (p : Program) (u : ParserState) (k : ℕ) : Prop :=
  ∃ w instr, u.elf.resolveUnresolvedInstructions.secText.data[k]? = some w ∧ Rv32i.decode w = some instr ∧
    ∀ env base c, Executes env base p.code.length instr (p.sourceStep env) k c

/-- The word of a branch. -/
theorem word_branch (h : p.Translated u) {pre post : List Reduction} {rs1 rs2 : Reg} {label : Symbol}
    {s : ParserState} (hsplit : p.reductions = pre ++ .instruction (.branch .beq rs1 rs2 label) :: post)
    (hs : run ParserState.step start pre = .ok s)
    (hi : p.code[s.elf.secText.data.length]? = some (.branch .beq rs1 rs2 label)) :
    IsWord p u s.elf.secText.data.length := by
  obtain ⟨k', hle, hpos, w, hw, _, _, imm, hdec, himm⟩ := h.reference hsplit hs rfl
  obtain ⟨w', hw', ho, hf, hregs⟩ := h.branch_word hsplit hs
  obtain rfl := Option.some.inj (hw.symm.trans hw')
  have hbeq := Rv32i.decode_beq ho hf
  cases hbeq.symm.trans hdec
  refine ⟨w, _, hw, hbeq, fun env base c => executes hi rfl ?_⟩
  -- equality does not see the order of the registers
  have htaken : Rv32i.BranchOp.beq.taken (c.read (Rv32i.rs1 w)) (c.read (Rv32i.rs2 w)) =
      decide (c.read rs1 = c.read rs2) := by
    rcases hregs with ⟨h1, h2⟩ | ⟨h1, h2⟩
    · rw [h1, h2]
      rfl
    · rw [h1, h2]
      exact decide_eq_decide.mpr eq_comm
  rw [Rv32i.Instr.next, htaken]
  by_cases heq : c.read rs1 = c.read rs2
  · refine ⟨k', hle, (if_pos heq).trans hpos, ?_⟩
    rw [decide_eq_true heq, if_pos rfl]
    exact pc_displaced himm base c c
  · refine ⟨_, (List.getElem?_eq_some_iff.mp hi).1, if_neg heq, ?_⟩
    rw [decide_eq_false heq, if_neg Bool.false_ne_true]
    exact pc_succ base _ c c

/-- **Word `k` of the final `.text` is instruction `k` of the source.** -/
theorem word (h : p.Translated u) {k : ℕ} {i : Instruction} (hi : p.code[k]? = some i) : IsWord p u k := by
  obtain ⟨pre, post, hsplit, hpre⟩ := exists_of_codeOf hi
  have hmem : i ∈ p.code := List.mem_of_getElem? hi
  have hrun : run ParserState.step start p.reductions = .ok u := h.accepted
  obtain ⟨s, hs⟩ := run_prefix_ok (hsplit ▸ hrun)
  obtain ⟨t, ht, -⟩ := run_at hs (hsplit ▸ hrun)
  obtain rfl : s.elf.secText.data.length = k := (h.length_text hsplit hs).trans hpre
  cases href : i.reference with
  | none =>
      obtain ⟨w, instr, hw, hdec, heff, hnext⟩ := decode_executable (h.executable i hmem) href ht
      refine ⟨w, instr, final_of_silent h.pendingInText h.accepted hsplit hs ht
        (pended_of_plain s href) hw, hdec, fun env base c => executes hi (heff env _ c) ?_⟩
      exact ⟨_, (List.getElem?_eq_some_iff.mp hi).1, next_of_plain href _ _ c,
        (hnext _ c).trans (pc_succ base _ c c)⟩
  | some x =>
      obtain ⟨insnType, l⟩ := x
      have hhref := href
      unfold Instruction.reference at hhref
      split at hhref
      · rename_i op rs1 rs2 label
        cases op
        exact h.word_branch hsplit hs hi
      · cases hhref
        obtain ⟨k', hle, hpos, w, hw, imm, hdec, himm⟩ := h.reference hsplit hs href
        exact ⟨w, _, hw, hdec, fun env base c => executes hi rfl
          ⟨k', hle, hpos, pc_displaced himm base c c⟩⟩
      · cases hhref

/-- The final `.text` has as many words as the source has instructions. -/
theorem length_final (h : p.Translated u) :
    u.elf.resolveUnresolvedInstructions.secText.data.length = p.code.length := by
  rw [ELF32.length_resolveUnresolvedInstructions]
  exact h.length_text (List.append_nil _).symm h.accepted

/-- **Lock step.** In memory that cannot be written, the final `.text` runs as the source does. -/
theorem lockstep (h : p.Translated u) {env : Env} {base : Word} (hbase : base.toNat % 4 = 0)
    (hlen : 4 * p.code.length < 2 ^ 32) (hro : Rv32i.ReadOnly env base (4 * p.code.length)) {k : ℕ} {c : Context}
    (hk : k ≤ p.code.length)
    (himage : Rv32i.Image base u.elf.resolveUnresolvedInstructions.secText.data c) (n : ℕ) :
    Rv32i.steps (Rv32i.confined (Rv32i.inside base (4 * p.code.length)) (Hart.step env)) n (place base (k, c)) =
      (Rv32i.steps (p.sourceStep env) n (k, c)).map (place base) := by
  have hfinal := h.length_final
  rw [← hfinal] at hlen hro hk ⊢
  refine Rv32i.steps_of_image hbase hlen hro ?_ ?_ n hk himage
  · intro k c hk _
    obtain ⟨w, instr, hw, hdec, hexec⟩ :=
      h.word (List.getElem?_eq_getElem (hfinal ▸ hk : k < p.code.length))
    obtain ⟨_, rfl⟩ := List.getElem?_eq_some_iff.mp hw
    exact ⟨instr, hdec, hfinal ▸ hexec env base c⟩
  · intro k c hk
    have hnone : p.code[k]? = none := List.getElem?_eq_none (hfinal ▸ hk)
    simp only [Program.sourceStep, hnone, Option.bind_none]

end Program.Translated

/-! ## From source text to execution -/

/-- The bytes run as the program does: at every aligned address of memory that cannot be written, from
every instruction on, and for any number of steps. -/
def Program.RunsAs (p : Program) (text : List Byte) : Prop :=
  ∀ (env : Env) (base : Word) (c : Context) (k n : ℕ), base.toNat % 4 = 0 →
    Rv32i.ReadOnly env base text.length → c.bytes base text.length = text → k ≤ p.code.length →
    Rv32i.steps (Rv32i.confined (Rv32i.inside base text.length) (Hart.step env)) n (place base (k, c)) =
      (Rv32i.steps (p.sourceStep env) n (k, c)).map (place base)

/-- **The assembler preserves meaning.** If the source is the text of such a program and the output can
be written, `main` leaves an object file in which a reader finds a section `.text` that runs as the
source program does. -/
theorem main_executes {host : Host} {name source : Str} {options : List Str} {contents : List Byte}
    {p : Program} {u : ParserState} (hsource : host.files source = some contents)
    (hp : tokens contents = p.tokens) (h : p.Translated u)
    (hlen : u.elf.resolveUnresolvedInstructions.file.length < 2 ^ 32)
    (htakes : host.Takes (outFilename source options) u.elf.resolveUnresolvedInstructions.file) :
    ∃ f ehdr i sh text, (main host (name :: source :: options)).status = 0 ∧
      (main host (name :: source :: options)).files (outFilename source options) = some f ∧
      Gabi.readEhdr f = some ehdr ∧ Gabi.sectionHeader f ehdr i = some sh ∧
      Gabi.sectionName f ehdr sh = some (str ".text") ∧ Gabi.sectionBytes f sh = some text ∧
      p.RunsAs text := by
  have he : p.assemble = .ok u.elf.resolveUnresolvedInstructions := by
    rw [Program.assemble, h.accepted]
    rfl
  have hshaped := ELF32.shaped_of_reachable (Program.reachable he)
  have hread := hshaped.reads_back hlen
  have hmain : main host (name :: source :: options) = ⟨0, [], Function.update host.files
      (outFilename source options) (some u.elf.resolveUnresolvedInstructions.file)⟩ := by
    rw [main_of_tokens hsource hp he, writeElf_of_takes htakes]
  refine ⟨_, _, _, _, _, by rw [hmain], by rw [hmain]; exact Function.update_self _ _ _, hread.ehdr,
    hread.text.header, hread.text.name, hread.text.bytes, ?_⟩
  intro env base c k n hbase hro hload hk
  have hbytes : (u.elf.resolveUnresolvedInstructions.secText.bytes .le).length = 4 * p.code.length := by
    rw [ELF32.length_textBytes, h.length_final]
  have hsmall : 4 * p.code.length < 2 ^ 32 := by
    rw [ELF32.length_file hshaped] at hlen
    simp only [ELF32.tableOffset, ELF32.symtabOffset, ELF32.shstrtabOffset, ELF32.strtabOffset,
      ELF32.dataOffset, h.length_final] at hlen
    omega
  rw [hbytes] at hro ⊢
  refine h.lockstep hbase hsmall hro hk ?_ n
  rw [Rv32i.Image, h.length_final, ← hbytes, hload]
  exact List.flatMap_congr fun w _ => write_le w

/-- `a: beq x5, x6, b` and `b: mv x10, x5`, in `.section .text`. -/
def branchAndMove : Program :=
  program (.directive .sectionText)
    [.labelInstructions (sym "a") (block (.branch .beq 5 6 (sym "b")) []),
      .labelInstructions (sym "b") (block (.psuedo (.mov 10 5)) [])]

theorem branchAndMove_translated : ∃ u, branchAndMove.parse = .ok u ∧ branchAndMove.Translated u ∧
    u.elf.resolveUnresolvedInstructions.file.length < 2 ^ 20 := by
  refine ⟨_, rfl, ⟨rfl, Program.codeInText_of_keep rfl (by decide), ?_,
    Program.referencesDefined_of_all (by decide), Program.displacementsInRange_of_length rfl (by decide), ?_⟩, ?_⟩
  · intro i hi
    have hcode : branchAndMove.code = [.branch .beq 5 6 (sym "b"), .psuedo (.mov 10 5)] := rfl
    rw [hcode, List.mem_cons, List.mem_singleton] at hi
    rcases hi with rfl | rfl <;> trivial
  · intro i insnType label s v hsite href
    obtain ⟨pre, post, hsplit, hs⟩ := hsite.reference
    obtain ⟨ss, b, ss', hss, hv⟩ := hsite.block
    have hsts : branchAndMove.statements =
        [.directive .sectionText, .labelInstructions (sym "a") (block (.branch .beq 5 6 (sym "b")) []),
          .labelInstructions (sym "b") (block (.psuedo (.mov 10 5)) [])] := rfl
    obtain ⟨hs, rfl, rfl⟩ : s = start.directiveAction .sectionText ∧ insnType = .bType ∧ label = sym "b" := by
      have hred : branchAndMove.reductions =
          [.directive .sectionText, .instruction (.branch .beq 5 6 (sym "b")),
            .labelInstructions (sym "a"), .instruction (.psuedo (.mov 10 5)),
            .labelInstructions (sym "b")] := rfl
      rw [hred] at hsplit
      rcases pre with _ | ⟨r₁, _ | ⟨r₂, _ | ⟨r₃, _ | ⟨r₄, _ | ⟨r₅, pre⟩⟩⟩⟩⟩
      · cases hsplit
      · cases hsplit
        obtain ⟨rfl, hlabel⟩ := Prod.mk.inj (Option.some.inj href)
        cases hs
        exact ⟨rfl, rfl, Symbol.ext hlabel.symm⟩
      · cases hsplit
      · cases hsplit
        cases href
      · cases hsplit
      · simp at hsplit
    subst hs
    rw [hsts] at hss
    rcases ss with _ | ⟨s₁, _ | ⟨s₂, _ | ⟨s₃, ss⟩⟩⟩
    · cases hss
    · injection hss with _ hss
      injection hss with hst _
      injection hst with hlabel
      exact absurd hlabel (by decide)
    · cases hss
      cases hv
      exact (siteFits_of_unknown (by decide)).mpr ⟨rfl, by decide, by decide⟩
    · simp at hss
  · decide +kernel

/-- The source text of that program, assembled and run. -/
theorem branchAndMove_executes :
    let contents := str ".section .text\na: beq x5, x6, b\nb: mv x10, x5\n"
    ∃ f ehdr i sh text, (main (roomy contents) [str "riscvass", str "a.s"]).status = 0 ∧
      (main (roomy contents) [str "riscvass", str "a.s"]).files (outFilename (str "a.s") []) = some f ∧
      Gabi.readEhdr f = some ehdr ∧ Gabi.sectionHeader f ehdr i = some sh ∧
      Gabi.sectionName f ehdr sh = some (str ".text") ∧ Gabi.sectionBytes f sh = some text ∧
      branchAndMove.RunsAs text := by
  obtain ⟨u, hu, h, hlen⟩ := branchAndMove_translated
  have htokens : tokens (str ".section .text\na: beq x5, x6, b\nb: mv x10, x5\n") =
      branchAndMove.tokens := by decide +kernel
  exact main_executes rfl htokens h (hlen.trans (by decide)) ⟨rfl, hlen.le⟩

end RiscvAssembler
