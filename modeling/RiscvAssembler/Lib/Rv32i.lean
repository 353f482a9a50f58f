import RiscvAssembler.Lib.BitFields

/-!
# The RV32I instruction words

What a 32-bit word means under the unprivileged RV32I base: the six formats' fields and immediates,
the instructions, and `decode`. It is written from the instruction set alone and does not know any
assembler.

* `Instr` has one constructor per operand shape; the mnemonics that share a shape are an
  enumeration (`BranchOp`, `LoadOp`, …).
* `decode : Word → Option Instr` is `none` on a word that is not an RV32I instruction.
* Immediates keep their architectural width (`BitVec 12`, `BitVec 13`, `BitVec 21`); their signed
  value is `BitVec.toInt`. `immB` and `immJ` end in the implicit zero bit, so they are byte
  displacements.
-/

namespace Rv32i

/-- An instruction word. -/
abbrev Word := BitVec 32

/-- A register number, `x0` to `x31`. -/
abbrev Reg := BitVec 5

/-! ## Fields and immediates -/

/-- Bits 6:0. -/
def opcode (w : Word) : BitVec 7 := w.extractLsb' 0 7

/-- Bits 11:7. -/
def rd (w : Word) : Reg := w.extractLsb' 7 5

/-- Bits 14:12. -/
def funct3 (w : Word) : BitVec 3 := w.extractLsb' 12 3

/-- Bits 19:15. -/
def rs1 (w : Word) : Reg := w.extractLsb' 15 5

/-- Bits 24:20. -/
def rs2 (w : Word) : Reg := w.extractLsb' 20 5

/-- Bits 31:25. -/
def funct7 (w : Word) : BitVec 7 := w.extractLsb' 25 7

/-- The I-type immediate. -/
def immI (w : Word) : BitVec 12 := w.extractLsb' 20 12

/-- The S-type immediate. -/
def immS (w : Word) : BitVec 12 := w.extractLsb' 25 7 ++ w.extractLsb' 7 5

/-- The B-type immediate, a byte displacement. -/
def immB (w : Word) : BitVec 13 :=
  w.extractLsb' 31 1 ++ (w.extractLsb' 7 1 ++ (w.extractLsb' 25 6 ++ (w.extractLsb' 8 4 ++ 0#1)))

/-- The U-type immediate, the upper 20 bits of the value. -/
def immU (w : Word) : BitVec 20 := w.extractLsb' 12 20

/-- The J-type immediate, a byte displacement. -/
def immJ (w : Word) : BitVec 21 :=
  w.extractLsb' 31 1 ++
    (w.extractLsb' 12 8 ++ (w.extractLsb' 20 1 ++ (w.extractLsb' 21 10 ++ 0#1)))

/-! ## Instructions -/

/-- Conditional branches. -/
inductive BranchOp
  | beq | bne | blt | bge | bltu | bgeu
  deriving DecidableEq, Repr

/-- Loads. -/
inductive LoadOp
  | lb | lh | lw | lbu | lhu
  deriving DecidableEq, Repr

/-- Stores. -/
inductive StoreOp
  | sb | sh | sw
  deriving DecidableEq, Repr

/-- Register-immediate arithmetic. -/
inductive ImmOp
  | addi | slti | sltiu | xori | ori | andi
  deriving DecidableEq, Repr

/-- Shifts by a constant. -/
inductive ShiftOp
  | slli | srli | srai
  deriving DecidableEq, Repr

/-- Register-register arithmetic. -/
inductive RegOp
  | add | sub | sll | slt | sltu | xor | srl | sra | or | and
  deriving DecidableEq, Repr

/-- An RV32I instruction, by operand shape. -/
inductive Instr
  | lui (rd : Reg) (imm : BitVec 20)
  | auipc (rd : Reg) (imm : BitVec 20)
  | jal (rd : Reg) (imm : BitVec 21)
  | jalr (rd rs1 : Reg) (imm : BitVec 12)
  | branch (op : BranchOp) (rs1 rs2 : Reg) (imm : BitVec 13)
  | load (op : LoadOp) (rd rs1 : Reg) (imm : BitVec 12)
  | store (op : StoreOp) (rs2 rs1 : Reg) (imm : BitVec 12)
  | immediate (op : ImmOp) (rd rs1 : Reg) (imm : BitVec 12)
  | shift (op : ShiftOp) (rd rs1 : Reg) (shamt : BitVec 5)
  | register (op : RegOp) (rd rs1 rs2 : Reg)
  | fence (rd rs1 : Reg) (imm : BitVec 12)
  | ecall
  | ebreak
  deriving DecidableEq, Repr

/-! ## Decoding -/

/-- The branch named by `funct3`. -/
def branchOp (f : BitVec 3) : Option BranchOp :=
  if f = 0 then some .beq else if f = 1 then some .bne else if f = 4 then some .blt
  else if f = 5 then some .bge else if f = 6 then some .bltu else if f = 7 then some .bgeu
  else none

/-- The load named by `funct3`. -/
def loadOp (f : BitVec 3) : Option LoadOp :=
  if f = 0 then some .lb else if f = 1 then some .lh else if f = 2 then some .lw
  else if f = 4 then some .lbu else if f = 5 then some .lhu else none

/-- The store named by `funct3`. -/
def storeOp (f : BitVec 3) : Option StoreOp :=
  if f = 0 then some .sb else if f = 1 then some .sh else if f = 2 then some .sw else none

/-- The register-register operation named by `funct3` and `funct7`. -/
def regOp (f : BitVec 3) (g : BitVec 7) : Option RegOp :=
  if g = 0x00 then
    if f = 0 then some .add else if f = 1 then some .sll else if f = 2 then some .slt
    else if f = 3 then some .sltu else if f = 4 then some .xor else if f = 5 then some .srl
    else if f = 6 then some .or else some .and
  else if g = 0x20 then
    if f = 0 then some .sub else if f = 5 then some .sra else none
  else none

/-- A register-immediate word: a shift for `funct3` 1 and 5, else an arithmetic operation. -/
def decodeImmediate (w : Word) : Option Instr :=
  if funct3 w = 0 then some (.immediate .addi (rd w) (rs1 w) (immI w))
  else if funct3 w = 2 then some (.immediate .slti (rd w) (rs1 w) (immI w))
  else if funct3 w = 3 then some (.immediate .sltiu (rd w) (rs1 w) (immI w))
  else if funct3 w = 4 then some (.immediate .xori (rd w) (rs1 w) (immI w))
  else if funct3 w = 6 then some (.immediate .ori (rd w) (rs1 w) (immI w))
  else if funct3 w = 7 then some (.immediate .andi (rd w) (rs1 w) (immI w))
  else if funct3 w = 1 then
    if funct7 w = 0x00 then some (.shift .slli (rd w) (rs1 w) (rs2 w)) else none
  else if funct7 w = 0x00 then some (.shift .srli (rd w) (rs1 w) (rs2 w))
  else if funct7 w = 0x20 then some (.shift .srai (rd w) (rs1 w) (rs2 w))
  else none

/-- A system word: `ecall` and `ebreak` are single words. -/
def decodeSystem (w : Word) : Option Instr :=
  if w = 0x00000073 then some .ecall else if w = 0x00100073 then some .ebreak else none

/-- The RV32I instruction a word stands for. -/
def decode (w : Word) : Option Instr :=
  if opcode w = 0x37 then some (.lui (rd w) (immU w))
  else if opcode w = 0x17 then some (.auipc (rd w) (immU w))
  else if opcode w = 0x6f then some (.jal (rd w) (immJ w))
  else if opcode w = 0x67 then
    if funct3 w = 0 then some (.jalr (rd w) (rs1 w) (immI w)) else none
  else if opcode w = 0x63 then
    (branchOp (funct3 w)).map fun op => .branch op (rs1 w) (rs2 w) (immB w)
  else if opcode w = 0x03 then
    (loadOp (funct3 w)).map fun op => .load op (rd w) (rs1 w) (immI w)
  else if opcode w = 0x23 then
    (storeOp (funct3 w)).map fun op => .store op (rs2 w) (rs1 w) (immS w)
  else if opcode w = 0x13 then decodeImmediate w
  else if opcode w = 0x33 then
    (regOp (funct3 w) (funct7 w)).map fun op => .register op (rd w) (rs1 w) (rs2 w)
  else if opcode w = 0x0f then
    if funct3 w = 0 then some (.fence (rd w) (rs1 w) (immI w)) else none
  else if opcode w = 0x73 then decodeSystem w
  else none

/-! ## The formats as arithmetic -/

variable (w : Word)

theorem toNat_opcode : (opcode w).toNat = w.toNat % 2 ^ 7 := by
  rw [opcode, BitFields.toNat_extract, Nat.pow_zero, Nat.div_one]

theorem toNat_rd : (rd w).toNat = w.toNat / 2 ^ 7 % 2 ^ 5 := BitFields.toNat_extract w 7 5

theorem toNat_funct3 : (funct3 w).toNat = w.toNat / 2 ^ 12 % 2 ^ 3 := BitFields.toNat_extract w 12 3

theorem toNat_rs1 : (rs1 w).toNat = w.toNat / 2 ^ 15 % 2 ^ 5 := BitFields.toNat_extract w 15 5

theorem toNat_rs2 : (rs2 w).toNat = w.toNat / 2 ^ 20 % 2 ^ 5 := BitFields.toNat_extract w 20 5

theorem toNat_funct7 : (funct7 w).toNat = w.toNat / 2 ^ 25 % 2 ^ 7 := BitFields.toNat_extract w 25 7

theorem toNat_immI : (immI w).toNat = w.toNat / 2 ^ 20 % 2 ^ 12 := BitFields.toNat_extract w 20 12

theorem toNat_immU : (immU w).toNat = w.toNat / 2 ^ 12 % 2 ^ 20 := BitFields.toNat_extract w 12 20

/-- The S-type immediate, from its two parts. -/
theorem toNat_immS :
    (immS w).toNat = 2 ^ 5 * (w.toNat / 2 ^ 25 % 2 ^ 7) + w.toNat / 2 ^ 7 % 2 ^ 5 := by
  rw [immS, BitFields.toNat_append, BitFields.toNat_extract, BitFields.toNat_extract]

/-- The B-type displacement, from the scattered fields. -/
theorem toNat_immB : (immB w).toNat = 2 ^ 12 * (w.toNat / 2 ^ 31 % 2) +
    (2 ^ 11 * (w.toNat / 2 ^ 7 % 2) + (2 ^ 5 * (w.toNat / 2 ^ 25 % 2 ^ 6) +
      2 * (w.toNat / 2 ^ 8 % 2 ^ 4))) := by
  simp only [immB, BitFields.toNat_append, BitFields.toNat_extract]
  simp

/-- The J-type displacement, from the scattered fields. -/
theorem toNat_immJ : (immJ w).toNat = 2 ^ 20 * (w.toNat / 2 ^ 31 % 2) +
    (2 ^ 12 * (w.toNat / 2 ^ 12 % 2 ^ 8) + (2 ^ 11 * (w.toNat / 2 ^ 20 % 2) +
      2 * (w.toNat / 2 ^ 21 % 2 ^ 10))) := by
  simp only [immJ, BitFields.toNat_append, BitFields.toNat_extract]
  simp

/-- The four parts of a B-type displacement are determined by their sum. -/
theorem immB_parts {a b c d a' b' c' d' : ℕ} (hb : b < 2) (hc : c < 2 ^ 6) (hd : d < 2 ^ 4)
    (hb' : b' < 2) (hc' : c' < 2 ^ 6) (hd' : d' < 2 ^ 4)
    (h : 2 ^ 12 * a + (2 ^ 11 * b + (2 ^ 5 * c + 2 * d)) =
      2 ^ 12 * a' + (2 ^ 11 * b' + (2 ^ 5 * c' + 2 * d'))) : a = a' ∧ b = b' ∧ c = c' ∧ d = d' := by
  omega

/-- The four parts of a J-type displacement are determined by their sum. -/
theorem immJ_parts {a b c d a' b' c' d' : ℕ} (hb : b < 2 ^ 8) (hc : c < 2) (hd : d < 2 ^ 10)
    (hb' : b' < 2 ^ 8) (hc' : c' < 2) (hd' : d' < 2 ^ 10)
    (h : 2 ^ 20 * a + (2 ^ 12 * b + (2 ^ 11 * c + 2 * d)) =
      2 ^ 20 * a' + (2 ^ 12 * b' + (2 ^ 11 * c' + 2 * d'))) : a = a' ∧ b = b' ∧ c = c' ∧ d = d' := by
  omega

/-- The top bit is what is left above all other fields. -/
theorem toNat_div_eq_of_msb {w w' : Word} (h : w.toNat / 2 ^ 31 % 2 = w'.toNat / 2 ^ 31 % 2) :
    w.toNat / 2 ^ 31 = w'.toNat / 2 ^ 31 := by
  have hw := w.isLt
  have hw' := w'.isLt
  omega

/-- A word is determined by its B-type fields. -/
theorem ext_bType {w w' : Word} (ho : opcode w = opcode w') (hf : funct3 w = funct3 w')
    (h1 : rs1 w = rs1 w') (h2 : rs2 w = rs2 w') (hi : immB w = immB w') : w = w' := by
  have ho := congrArg BitVec.toNat ho
  have hf := congrArg BitVec.toNat hf
  have h1 := congrArg BitVec.toNat h1
  have h2 := congrArg BitVec.toNat h2
  have hi := congrArg BitVec.toNat hi
  rw [toNat_opcode, toNat_opcode] at ho
  rw [toNat_funct3, toNat_funct3] at hf
  rw [toNat_rs1, toNat_rs1] at h1
  rw [toNat_rs2, toNat_rs2] at h2
  rw [toNat_immB, toNat_immB] at hi
  have hlt (x n : ℕ) : x % 2 ^ n < 2 ^ n := Nat.mod_lt x (Nat.two_pow_pos n)
  obtain ⟨h31, h7, h25, h8⟩ := immB_parts (hlt _ 1) (hlt _ 6) (hlt _ 4) (hlt _ 1) (hlt _ 6) (hlt _ 4) hi
  have hword := BitFields.div_eq_of_field (k := 0) 7 (BitFields.div_eq_of_field (k := 7) 1
    (BitFields.div_eq_of_field (k := 8) 4 (BitFields.div_eq_of_field (k := 12) 3
    (BitFields.div_eq_of_field (k := 15) 5 (BitFields.div_eq_of_field (k := 20) 5
    (BitFields.div_eq_of_field (k := 25) 6 (toNat_div_eq_of_msb h31) h25) h2) h1) hf) h8) h7)
    (by simpa using ho)
  exact BitVec.eq_of_toNat_eq (by simpa using hword)

/-- The upper bits have the fields above `rd`. -/
theorem fields_of_immU {w w' : Word} (h : immU w = immU w') :
    funct3 w = funct3 w' ∧ rs1 w = rs1 w' ∧ rs2 w = rs2 w' := by
  have h := congrArg BitVec.toNat h
  rw [toNat_immU, toNat_immU] at h
  refine ⟨?_, ?_, ?_⟩ <;> apply BitVec.eq_of_toNat_eq
  · rw [toNat_funct3, toNat_funct3]; omega
  · rw [toNat_rs1, toNat_rs1]; omega
  · rw [toNat_rs2, toNat_rs2]; omega

/-- A word is determined by its U-type fields. -/
theorem ext_uType {w w' : Word} (ho : opcode w = opcode w') (hd : rd w = rd w')
    (hi : immU w = immU w') : w = w' := by
  have ho := congrArg BitVec.toNat ho
  have hd := congrArg BitVec.toNat hd
  have hi := congrArg BitVec.toNat hi
  rw [toNat_opcode, toNat_opcode] at ho
  rw [toNat_rd, toNat_rd] at hd
  rw [toNat_immU, toNat_immU] at hi
  have hw := w.isLt
  have hw' := w'.isLt
  apply BitVec.eq_of_toNat_eq
  omega

/-- A word is determined by its J-type fields. -/
theorem ext_jType {w w' : Word} (ho : opcode w = opcode w') (hd : rd w = rd w')
    (hi : immJ w = immJ w') : w = w' := by
  have ho := congrArg BitVec.toNat ho
  have hd := congrArg BitVec.toNat hd
  have hi := congrArg BitVec.toNat hi
  rw [toNat_opcode, toNat_opcode] at ho
  rw [toNat_rd, toNat_rd] at hd
  rw [toNat_immJ, toNat_immJ] at hi
  have hlt (x n : ℕ) : x % 2 ^ n < 2 ^ n := Nat.mod_lt x (Nat.two_pow_pos n)
  obtain ⟨h31, h12, h20, h21⟩ :=
    immJ_parts (hlt _ 8) (hlt _ 1) (hlt _ 10) (hlt _ 8) (hlt _ 1) (hlt _ 10) hi
  have hword := BitFields.div_eq_of_field (k := 0) 7 (BitFields.div_eq_of_field (k := 7) 5
    (BitFields.div_eq_of_field (k := 12) 8 (BitFields.div_eq_of_field (k := 20) 1
    (BitFields.div_eq_of_field (k := 21) 10 (toNat_div_eq_of_msb h31) h21) h20) h12) hd)
    (by simpa using ho)
  exact BitVec.eq_of_toNat_eq (by simpa using hword)

variable {w}

/-- A word with the branch opcode and `funct3` 0 is a `beq`. -/
theorem decode_beq (ho : opcode w = 0x63) (hf : funct3 w = 0) :
    decode w = some (.branch .beq (rs1 w) (rs2 w) (immB w)) := by
  simp [decode, ho, hf, branchOp]

/-- A word with the `jal` opcode is a `jal`. -/
theorem decode_jal (ho : opcode w = 0x6f) : decode w = some (.jal (rd w) (immJ w)) := by
  simp [decode, ho]

end Rv32i
