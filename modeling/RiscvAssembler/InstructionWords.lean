import RiscvAssembler.Effects

/-!
# What the words of instructions without labels say

A plain instruction names no label, no symbol and no memory cell, and its literal, if it has one,
is in range (`Instruction.Plain`). `Instruction.meant` is what RV32I means by the statement: `none`
where the mnemonic does not have these operands.

* `step_plain`: a plain instruction is accepted in every state and appends one word.
* `faithful_iff`: it is treated as RV32I means it exactly when its mnemonic is one that the
  tables get right. `sub` comes out as `add` because `funct7` is not passed on; `ori` and `andi`
  have the `funct3` of a shift and of `ori`; `ret` swaps its register and its immediate; the bare
  `opcode` production and the three-register one take mnemonics that have neither form.
* `OpcodeLoadStore.encoded_iff`: a load or a store is encoded as written exactly when its offset fits
  the field; nothing checks that it does.
-/

namespace RiscvAssembler

open Runs ParserState

/-- The register operation of a mnemonic, if it is one. -/
def Opcode.registerOp : Opcode → Option Rv32i.RegOp
  | .add => some .add
  | .sub => some .sub
  | _ => none

/-- The mnemonic of an immediate instruction. -/
def OpcodeImmediate.mnemonic : OpcodeImmediate → Rv32i.ImmOp
  | .addi => .addi
  | .slti => .slti
  | .ori => .ori
  | .xori => .xori
  | .andi => .andi

namespace Instruction

/-- No label, no symbol, no memory access, and a literal that fits twelve bits. -/
def Plain : Instruction → Prop
  | .rType _ _ _ _ => True
  | .iType _ _ _ (.imm ival) => -2048 ≤ ival.toInt ∧ ival.toInt ≤ 2047
  | .opcode _ => True
  | .psuedo (.mov _ _) => True
  | .psuedo .ret => True
  | _ => False

/-- What RV32I means by a plain statement; `none` for operands that the mnemonic does not take. -/
def meant : Instruction → Option Rv32i.Instr
  | .rType op rd rs1 rs2 => op.registerOp.map fun op => .register op rd rs1 rs2
  | .iType op rd rs1 (.imm ival) =>
    some (.immediate op.mnemonic rd rs1 (BitVec.ofInt 12 ival.toInt))
  | .opcode op => if op = .ecall then some .ecall else none
  | .psuedo (.mov rd rs) => some (.immediate .addi rd rs 0)
  | .psuedo .ret => some (.jalr 0 1 0)
  | _ => none

/-- In state `s`, the statement is treated as RV32I means it: it appends one word, that of the
instruction, or is not accepted. -/
def Faithful (s : ParserState) (i : Instruction) : Prop :=
  match i.meant with
  | some instr =>
    ∃ t w, step s (.instruction i) = .ok t ∧
      t.elf.secText.data = s.elf.secText.data ++ [w] ∧ Rv32i.decode w = some instr
  | none => ∀ t, step s (.instruction i) ≠ .ok t

/-- The statements whose mnemonic is handled right: `add` with three registers, the bare `ecall`,
`addi`, `slti`, `xori` and `mv`. -/
def Handled : Instruction → Prop
  | .rType op _ _ _ => op = .add
  | .iType op _ _ _ => op = .addi ∨ op = .slti ∨ op = .xori
  | .opcode op => op = .ecall
  | .psuedo (.mov _ _) => True
  | _ => False

end Instruction

/-! ## Acceptance -/

/-- The low bits of a sign extension are the low bits of the literal. -/
theorem toNat_setWidth_signExtend (ival : BitVec 32) (n : ℕ) (hn : n ≤ 64) :
    ((ival.signExtend 64).setWidth n).toNat = (ival.toInt % 2 ^ n).toNat := by
  have hdvd : (2 ^ n : ℤ) ∣ 2 ^ 64 := pow_dvd_pow 2 hn
  have hext : ((ival.signExtend 64).toNat : ℤ) = ival.toInt % 2 ^ 64 := by
    rw [BitVec.signExtend, BitVec.toNat_ofInt]
    exact Int.toNat_of_nonneg (Int.emod_nonneg _ (by decide))
  have hcast : (((ival.signExtend 64).setWidth n).toNat : ℤ) = ival.toInt % 2 ^ n := by
    rw [BitVec.toNat_setWidth]
    push_cast
    rw [hext, Int.emod_emod_of_dvd _ hdvd]
  omega

/-- The literal that an immediate instruction masks and narrows is the one that was written. -/
theorem literal_eq (ival : BitVec 32) :
    ((ival.signExtend 64 &&& 0xFFF).setWidth 32).setWidth 12 = BitVec.ofInt 12 ival.toInt := by
  apply BitVec.eq_of_toNat_eq
  have hmask := toNat_and_mask 12 (ival.signExtend 64) 0xFFF rfl
  have hlow := toNat_setWidth_signExtend ival 12 (by decide)
  rw [BitVec.toNat_setWidth] at hmask hlow
  rw [BitVec.toNat_ofInt, BitVec.toNat_setWidth, BitVec.toNat_setWidth]
  omega

/-- The range check sees the literal that was written. -/
theorem isWithinRange12b_iff (ival : BitVec 32) :
    isWithinRange12b ((ival.signExtend 64).setWidth 32) = true ↔
      -2048 ≤ ival.toInt ∧ ival.toInt ≤ 2047 := by
  have heq : (ival.signExtend 64).setWidth 32 = ival := by
    apply BitVec.eq_of_toNat_eq
    have hself := congrArg BitVec.toNat (@BitVec.ofInt_toInt 32 ival)
    rw [BitVec.toNat_ofInt] at hself
    rw [toNat_setWidth_signExtend ival 32 (by decide)]
    exact hself
  rw [heq, isWithinRange12b, Bool.and_eq_true, decide_eq_true_eq, decide_eq_true_eq]

/-- A plain instruction is accepted in every state. -/
theorem step_plain (s : ParserState) {i : Instruction} (hi : i.Plain) :
    ∃ t, step s (.instruction i) = .ok t := by
  cases i with
  | rType op rd rs1 rs2 => exact ⟨_, rfl⟩
  | iType op rd rs1 imm =>
      cases imm with
      | imm ival => exact ⟨_, if_pos ((isWithinRange12b_iff ival).mpr hi)⟩
      | modifier hi' => exact hi.elim
      | symbol symbol => exact hi.elim
  | loadStore op r imm base => exact hi.elim
  | branch op rs1 rs2 symbol => exact hi.elim
  | opcode op => exact ⟨_, rfl⟩
  | psuedo p =>
      cases p with
      | la rd symbol => exact hi.elim
      | jump symbol => exact hi.elim
      | mov rd rs => exact ⟨_, rfl⟩
      | ret => exact ⟨_, rfl⟩

namespace Instruction

/-- Since a plain instruction is always accepted, it is faithful iff RV32I has the statement and the
word that it emits is the one for it. -/
theorem faithful_iff_decode (s : ParserState) (i : Instruction) (hi : i.Plain) {w : Word}
    (hw : emitted s i = [w]) :
    i.Faithful s ↔ ∃ instr, i.meant = some instr ∧ Rv32i.decode w = some instr := by
  obtain ⟨t, ht⟩ := step_plain s hi
  have htext := (step_instruction ht).text
  rw [hw] at htext
  unfold Faithful
  cases hm : i.meant with
  | none => simpa using ⟨t, ht⟩
  | some instr =>
      simp only [Option.some.injEq, exists_eq_left']
      constructor
      · rintro ⟨t', w', ht', htext', hdec⟩
        obtain rfl := Except.ok.inj (ht.symm.trans ht')
        obtain rfl : w' = w := by
          simpa using htext'.symm.trans htext
        exact hdec
      · exact fun hdec => ⟨t, w, ht, htext, hdec⟩

/-! ## The tables -/

/-- A three-register statement emits an R-type word whose `funct7` is zero. -/
theorem decode_rType (op : Opcode) (rd rs1 rs2 : Reg) (hop : op.value.op = 0x33) :
    Rv32i.decode (emitRTypeInstruction 0 rs1.toUnsigned rs2.toUnsigned op.value.funct3
        rd.toUnsigned op.value.op) =
      (Rv32i.regOp (op.value.funct3.setWidth 3) 0).map fun op => .register op rd rs1 rs2 := by
  simp [Rv32i.decode, hop, Reg.toUnsigned]

/-- The word of an immediate statement whose `funct3` is that of a register-immediate operation. -/
theorem decode_iType (rd rs1 : Reg) (ival : BitVec 32) (funct3 : Word) (op : Rv32i.ImmOp)
    (hop : (funct3 = 0 ∧ op = .addi) ∨ (funct3 = 2 ∧ op = .slti) ∨ (funct3 = 4 ∧ op = .xori) ∨
      (funct3 = 6 ∧ op = .ori)) :
    Rv32i.decode (emitITypeInstruction rd.toUnsigned rs1.toUnsigned
        ((ival.signExtend 64 &&& 0xFFF).setWidth 32) funct3 0x13) =
      some (.immediate op rd rs1 (BitVec.ofInt 12 ival.toInt)) := by
  rcases hop with ⟨rfl, rfl⟩ | ⟨rfl, rfl⟩ | ⟨rfl, rfl⟩ | ⟨rfl, rfl⟩ <;>
    simp only [Rv32i.decode, Rv32i.decodeImmediate, opcode_emitIType, funct3_emitIType,
      rd_emitIType, rs1_emitIType, immI_emitIType, literal_eq, Reg.toUnsigned] <;>
    simp

/-- With the `funct3` of a shift a word is never a register-immediate operation. -/
theorem decode_shift (rd rs1 : Reg) (imm : Word) (op : Rv32i.ImmOp) (rd' rs1' : Reg)
    (imm' : BitVec 12) :
    Rv32i.decode (emitITypeInstruction rd.toUnsigned rs1.toUnsigned imm 5 0x13) ≠
      some (.immediate op rd' rs1' imm') := by
  simp only [Rv32i.decode, Rv32i.decodeImmediate, opcode_emitIType, funct3_emitIType]
  simp only [BitVec.reduceSetWidth, BitVec.reduceEq, if_true, if_false]
  split_ifs <;> simp

/-- **Which plain statements are encoded as RV32I means them.** -/
theorem faithful_iff (s : ParserState) (i : Instruction) (hi : i.Plain) :
    i.Faithful s ↔ i.Handled := by
  cases i with
  | rType op rd rs1 rs2 =>
      rw [faithful_iff_decode s _ hi rfl]
      cases op with
      | sltiu => simp [meant, Opcode.registerOp, Handled]
      | ecall => simp [meant, Opcode.registerOp, Handled]
      | add =>
          rw [decode_rType .add rd rs1 rs2 rfl]
          simp [meant, Opcode.registerOp, Handled, Opcode.value, Rv32i.regOp]
      | sub =>
          -- the word of `sub` is that of `add`
          rw [decode_rType .sub rd rs1 rs2 rfl]
          simp [meant, Opcode.registerOp, Handled, Opcode.value, Rv32i.regOp]
  | iType op rd rs1 imm =>
      cases imm with
      | modifier hi' => exact hi.elim
      | symbol symbol => exact hi.elim
      | imm ival =>
          rw [faithful_iff_decode s _ hi rfl]
          cases op with
          | addi =>
              have hdec := decode_iType rd rs1 ival 0 .addi (by simp)
              exact iff_of_true ⟨_, rfl, hdec⟩ (Or.inl rfl)
          | slti =>
              have hdec := decode_iType rd rs1 ival 2 .slti (by simp)
              exact iff_of_true ⟨_, rfl, hdec⟩ (Or.inr (Or.inl rfl))
          | ori =>
              have hdec := decode_shift rd rs1 ((ival.signExtend 64 &&& 0xFFF).setWidth 32) .ori rd rs1
                (BitVec.ofInt 12 ival.toInt)
              exact iff_of_false (fun ⟨_, hm, hw⟩ => hdec (hw.trans hm.symm)) (by simp [Handled])
          | xori =>
              have hdec := decode_iType rd rs1 ival 4 .xori (by simp)
              exact iff_of_true ⟨_, rfl, hdec⟩ (Or.inr (Or.inr rfl))
          | andi =>
              -- the word of `andi` is that of `ori`
              have hdec := decode_iType rd rs1 ival 6 .ori (by simp)
              refine iff_of_false (fun ⟨_, hm, hw⟩ => ?_) (by simp [Handled])
              have heq := Option.some.inj (hdec.symm.trans (hw.trans hm.symm))
              simp [OpcodeImmediate.mnemonic] at heq
  | loadStore op r imm base => exact hi.elim
  | branch op rs1 rs2 symbol => exact hi.elim
  | opcode op =>
      rw [faithful_iff_decode s _ hi rfl]
      cases op with
      | ecall => exact iff_of_true ⟨.ecall, rfl, by decide⟩ rfl
      | _ => simp [meant, Handled]
  | psuedo p =>
      cases p with
      | la rd symbol => exact hi.elim
      | jump symbol => exact hi.elim
      | mov rd rs =>
          rw [faithful_iff_decode s _ hi rfl]
          have hdec : Rv32i.decode (emitITypeInstruction rd.toUnsigned rs.toUnsigned 0 0x0 0x13) =
              some (.immediate .addi rd rs 0) := by
            simp [Rv32i.decode, Rv32i.decodeImmediate, Reg.toUnsigned]
          exact iff_of_true ⟨_, rfl, hdec⟩ trivial
      | ret =>
          rw [faithful_iff_decode s _ hi rfl]
          have hdec : Rv32i.decode (emitITypeInstruction 0 0 1 0x0 jalr32) = some (.jalr 0 0 1) := by
            decide
          rw [hdec]
          simp [meant, Handled]

/-- `addi x5, x6, -1` at the start of a program. -/
theorem addi_faithful : (iType .addi 5 6 (.imm (-1))).Faithful start :=
  (faithful_iff start (iType .addi 5 6 (.imm (-1))) ⟨by decide, by decide⟩).mpr (Or.inl rfl)

/-- `sub x1, x2, x3` at the start of a program appends the word of `add x1, x2, x3`. -/
theorem sub_not_faithful : ¬ ∀ s i, Plain i → i.Faithful s := by
  intro h
  obtain ⟨instr, hm, hw⟩ := (faithful_iff_decode start (rType .sub 1 2 3) trivial rfl).mp
    (h start (rType .sub 1 2 3) trivial)
  cases hm
  revert hw
  decide

end Instruction

/-! ## Loads and stores -/

/-- What RV32I means by a load or a store with the given data register, base and offset. -/
def OpcodeLoadStore.meant (op : OpcodeLoadStore) (r base : Reg) (offset : BitVec 12) : Rv32i.Instr :=
  match op with
  | .lb => .load .lb r base offset
  | .lh => .load .lh r base offset
  | .lw => .load .lw r base offset
  | .lbu => .load .lbu r base offset
  | .lhu => .load .lhu r base offset
  | .sb => .store .sb r base offset
  | .sh => .store .sh r base offset
  | .sw => .store .sw r base offset

/-- In state `s`, the access is encoded with the offset that was written, which fits its field, or it is
rejected. -/
def OpcodeLoadStore.Encoded (s : ParserState) (op : OpcodeLoadStore) (r : Reg) (imm : BitVec 32)
    (base : Reg) : Prop :=
  (-2048 ≤ imm.toInt ∧ imm.toInt ≤ 2047 ∧
    ∃ t w offset, step s (.instruction (.loadStore op r imm base)) = .ok t ∧
      t.elf.secText.data = s.elf.secText.data ++ [w] ∧
      Rv32i.decode w = some (op.meant r base offset) ∧ offset.toInt = imm.toInt) ∨
    ∀ t, step s (.instruction (.loadStore op r imm base)) ≠ .ok t

/-- The one word of a load or store: the mnemonic and the registers are right, the offset is cut to twelve
bits. -/
theorem emitted_loadStore (s : ParserState) (op : OpcodeLoadStore) (r : Reg) (imm : BitVec 32)
    (base : Reg) : ∃ w, emitted s (.loadStore op r imm base) = [w] ∧
      Rv32i.decode w = some (op.meant r base (imm.setWidth 12)) := by
  have hload : ∀ funct3 : Word, Rv32i.decode
      (emitITypeInstruction r.toUnsigned base.toUnsigned imm funct3 0x03) =
        (Rv32i.loadOp (funct3.setWidth 3)).map fun op => .load op r base (imm.setWidth 12) := by
    intro funct3
    simp [Rv32i.decode, Reg.toUnsigned]
  have hstore : ∀ funct3 : Word, Rv32i.decode
      (emitSTypeInstruction r.toUnsigned base.toUnsigned imm funct3 0x23) =
        (Rv32i.storeOp (funct3.setWidth 3)).map fun op => .store op r base (imm.setWidth 12) := by
    intro funct3
    simp [Rv32i.decode, Reg.toUnsigned]
  cases op with
  | lb => exact ⟨_, rfl, hload 0⟩
  | lh => exact ⟨_, rfl, hload 1⟩
  | lw => exact ⟨_, rfl, hload 2⟩
  | lbu => exact ⟨_, rfl, hload 4⟩
  | lhu => exact ⟨_, rfl, hload 5⟩
  | sb => exact ⟨_, rfl, hstore 0⟩
  | sh => exact ⟨_, rfl, hstore 1⟩
  | sw => exact ⟨_, rfl, hstore 2⟩

/-- A cut offset is the one that was written iff that fits. -/
theorem toInt_setWidth_eq_iff (imm : BitVec 32) :
    (imm.setWidth 12).toInt = imm.toInt ↔ -2048 ≤ imm.toInt ∧ imm.toInt ≤ 2047 := by
  have himm := imm.isLt
  rw [BitVec.toInt_eq_toNat_cond, BitVec.toInt_eq_toNat_cond, BitVec.toNat_setWidth]
  split_ifs <;> omega

/-- **Which loads and stores are encoded**: no offset is ever rejected, so it is those with an offset in
range. -/
theorem OpcodeLoadStore.encoded_iff (s : ParserState) (op : OpcodeLoadStore) (r : Reg)
    (imm : BitVec 32) (base : Reg) :
    op.Encoded s r imm base ↔ -2048 ≤ imm.toInt ∧ imm.toInt ≤ 2047 := by
  obtain ⟨t, ht⟩ : ∃ t, step s (.instruction (.loadStore op r imm base)) = .ok t := ⟨_, rfl⟩
  obtain ⟨w, hw, hdec⟩ := emitted_loadStore s op r imm base
  unfold OpcodeLoadStore.Encoded
  constructor
  · rintro (⟨hlo, hhi, -⟩ | hrejected)
    · exact ⟨hlo, hhi⟩
    · exact absurd ht (hrejected t)
  · intro hrange
    refine Or.inl ⟨hrange.1, hrange.2, t, w, imm.setWidth 12, ht, ?_, hdec, ?_⟩
    · rw [(step_instruction ht).text, hw]
    · exact (toInt_setWidth_eq_iff imm).mpr hrange

/-- `lw x5, 4096(x2)` appends the word of `lw x5, 0(x2)`. -/
theorem lw_not_encoded : ¬ ∀ s (op : OpcodeLoadStore) r imm base, op.Encoded s r imm base := by
  intro h
  have hrange := (OpcodeLoadStore.encoded_iff start .lw 5 4096 2).mp (h start .lw 5 4096 2)
  revert hrange
  decide

end RiscvAssembler
