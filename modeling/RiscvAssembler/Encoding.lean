import RiscvAssembler.Lib.Rv32i

/-!
# The instruction encoder (`encoding.h`, `encoding.cc`)

One structure per format, with a bit vector of the field's width for each bit-field member, so that
the implicit truncation of an assignment is `BitVec.setWidth`; `toWord` is the conversion operator
and `deserialize` the static function of the same name. The `emit…TypeInstruction` functions keep
the parameter order of their definitions in `encoding.cc`.

The second half computes what the emitters' words say under RV32I:

* `toNat_toWord` of each format: the value of a word as a Horner sum of its fields.
* `rs1_emitBType` … `immB_emitBType`, `immJ_emitJType`, `immI_emitIType`, …: the architectural
  fields of an emitted word.
* `bImmediate`, `jImmediate`: the displacement that a value passed as `imm` comes out as.
* `conversions_inverse`: `toWord` and `deserialize` undo each other in the formats that have both.
* `emitters_exact`: every field of every emitted word, in one statement.
-/

namespace RiscvAssembler

open BitFields

/-- An instruction word (`uint32_t`). -/
abbrev Word := BitVec 32

/-- `INSTRUCTION_WIDTH`, a `size_t`. -/
def instructionWidth : BitVec 64 := 4

/-- `BIT_MASK(n)`, an `unsigned long long`. -/
def bitMask (n : ℕ) : BitVec 64 := (1#64 <<< n) - 1#64

/-- `(val >> lo) & BIT_MASK(n)` assigned to a bit-field of width `n`. -/
def bitField (val : Word) (lo n : ℕ) : BitVec n :=
  ((val >>> lo).setWidth 64 &&& bitMask n).setWidth n

/-! ## R-type -/

/-- Source: `encoding.h`, `rtype32_t`. -/
structure Rtype32 where
  opcode : BitVec 7
  rd : BitVec 5
  funct3 : BitVec 3
  rs1 : BitVec 5
  rs2 : BitVec 5
  funct7 : BitVec 7

/-- Source: `encoding.h`, `rtype32_t::operator uint32_t`. -/
def Rtype32.toWord (i : Rtype32) : Word :=
  i.funct7.setWidth 32 <<< 25 ||| i.rs2.setWidth 32 <<< 20 ||| i.rs1.setWidth 32 <<< 15 |||
    i.funct3.setWidth 32 <<< 12 ||| i.rd.setWidth 32 <<< 7 ||| i.opcode.setWidth 32

/-- Source: `encoding.cc`, `emit_r_type_instruction`. -/
def emitRTypeInstruction (funct7 rs1 rs2 funct3 rd opcode : Word) : Word :=
  Rtype32.toWord
    { rd := rd.setWidth 5
      rs1 := rs1.setWidth 5
      rs2 := rs2.setWidth 5
      funct7 := funct7.setWidth 7
      funct3 := funct3.setWidth 3
      opcode := opcode.setWidth 7 }

/-! ## I-type -/

/-- Source: `encoding.h`, `itype32_t`. -/
structure Itype32 where
  opcode : BitVec 7
  rd : BitVec 5
  funct3 : BitVec 3
  rs1 : BitVec 5
  imm : BitVec 12

/-- Source: `encoding.h`, `itype32_t::operator uint32_t`. -/
def Itype32.toWord (i : Itype32) : Word :=
  i.imm.setWidth 32 <<< 20 ||| i.rs1.setWidth 32 <<< 15 ||| i.funct3.setWidth 32 <<< 12 |||
    i.rd.setWidth 32 <<< 7 ||| i.opcode.setWidth 32

/-- Source: `encoding.cc`, `emit_i_type_instruction`. -/
def emitITypeInstruction (rd rs1 imm funct3 opcode : Word) : Word :=
  Itype32.toWord
    { rd := rd.setWidth 5
      rs1 := rs1.setWidth 5
      imm := imm.setWidth 12
      funct3 := funct3.setWidth 3
      opcode := opcode.setWidth 7 }

/-! ## S-type -/

/-- Source: `encoding.h`, `stype32_t`. -/
@[ext] structure Stype32 where
  opcode : BitVec 7
  immLo : BitVec 5
  funct3 : BitVec 3
  rs1 : BitVec 5
  rs2 : BitVec 5
  immHi : BitVec 7

/-- Source: `encoding.h`, `stype32_t::operator uint32_t`. -/
def Stype32.toWord (i : Stype32) : Word :=
  i.immHi.setWidth 32 <<< 25 ||| i.rs2.setWidth 32 <<< 20 ||| i.rs1.setWidth 32 <<< 15 |||
    i.funct3.setWidth 32 <<< 12 ||| i.immLo.setWidth 32 <<< 7 ||| i.opcode.setWidth 32

/-- Source: `encoding.h`, `stype32_t::deserialize`. -/
def Stype32.deserialize (val : Word) : Stype32 where
  opcode := bitField val 0 7
  immLo := bitField val 7 5
  funct3 := bitField val 12 3
  rs1 := bitField val 15 5
  rs2 := bitField val 20 5
  immHi := bitField val 25 7

/-- Source: `encoding.cc`, `emit_s_type_instruction`. -/
def emitSTypeInstruction (rs2 rs1 imm funct3 opcode : Word) : Word :=
  Stype32.toWord
    { opcode := opcode.setWidth 7
      rs1 := (rs1 &&& 0x1F).setWidth 5
      rs2 := (rs2 &&& 0x1F).setWidth 5
      immLo := (imm &&& 0x1F).setWidth 5
      immHi := (imm >>> 5 &&& 0x7F).setWidth 7
      funct3 := (funct3 &&& 0x7).setWidth 3 }

/-! ## U-type -/

/-- Source: `encoding.h`, `utype32_t`. -/
@[ext] structure Utype32 where
  opcode : BitVec 7
  rd : BitVec 5
  imm : BitVec 20

/-- Source: `encoding.h`, `utype32_t::operator uint32_t`. -/
def Utype32.toWord (i : Utype32) : Word :=
  i.imm.setWidth 32 <<< 12 ||| i.rd.setWidth 32 <<< 7 ||| i.opcode.setWidth 32

/-- Source: `encoding.h`, `utype32_t::deserialize`. -/
def Utype32.deserialize (val : Word) : Utype32 where
  opcode := bitField val 0 7
  rd := bitField val 7 5
  imm := bitField val 12 20

/-- Source: `encoding.cc`, `emit_u_type_instruction`. -/
def emitUTypeInstruction (imm rd opcode : Word) : Word :=
  (imm &&& 0xFFFFF) <<< 12 ||| (rd &&& 0x1F) <<< 7 ||| opcode &&& 0x7F

/-! ## B-type -/

/-- Source: `encoding.h`, `btype32_t`. -/
@[ext] structure Btype32 where
  opcode : BitVec 7
  imm11 : BitVec 1
  imm4_1 : BitVec 4
  funct3 : BitVec 3
  rs1 : BitVec 5
  rs2 : BitVec 5
  imm10_5 : BitVec 6
  imm12 : BitVec 1

/-- Source: `encoding.h`, `btype32_t::operator uint32_t`. -/
def Btype32.toWord (i : Btype32) : Word :=
  i.imm12.setWidth 32 <<< 31 ||| i.imm10_5.setWidth 32 <<< 25 ||| i.rs2.setWidth 32 <<< 20 |||
    i.rs1.setWidth 32 <<< 15 ||| i.funct3.setWidth 32 <<< 12 ||| i.imm4_1.setWidth 32 <<< 8 |||
    i.imm11.setWidth 32 <<< 7 ||| i.opcode.setWidth 32

/-- Source: `encoding.h`, `btype32_t::deserialize`. -/
def Btype32.deserialize (val : Word) : Btype32 where
  opcode := bitField val 0 7
  imm11 := bitField val 7 1
  imm4_1 := bitField val 8 4
  funct3 := bitField val 12 3
  rs1 := bitField val 15 5
  rs2 := bitField val 20 5
  imm10_5 := bitField val 25 6
  imm12 := bitField val 31 1

/-- The second and the third parameter are called `rs1` and `rs2` in the declaration of
`encoding.h`; the definition below is the one that is compiled.
Source: `encoding.cc`, `emit_b_type_instruction`. -/
def emitBTypeInstruction (imm rs2 rs1 funct3 opcode : Word) : Word :=
  Btype32.toWord
    { opcode := opcode.setWidth 7
      funct3 := funct3.setWidth 3
      rs2 := rs2.setWidth 5
      rs1 := rs1.setWidth 5
      imm4_1 := (imm >>> 1 &&& 0xF).setWidth 4
      imm11 := (imm >>> 11 &&& 0x1).setWidth 1
      imm12 := (imm >>> 12 &&& 0x1).setWidth 1
      imm10_5 := (imm >>> 5 &&& 0x3F).setWidth 6 }

/-! ## J-type -/

/-- Source: `encoding.h`, `jtype32_t`. -/
@[ext] structure Jtype32 where
  opcode : BitVec 7
  rd : BitVec 5
  imm12_19 : BitVec 8
  imm11 : BitVec 1
  imm1_10 : BitVec 10
  imm20 : BitVec 1

/-- Source: `encoding.h`, `jtype32_t::operator uint32_t`. -/
def Jtype32.toWord (i : Jtype32) : Word :=
  i.imm20.setWidth 32 <<< 31 ||| i.imm1_10.setWidth 32 <<< 21 ||| i.imm11.setWidth 32 <<< 20 |||
    i.imm12_19.setWidth 32 <<< 12 ||| i.rd.setWidth 32 <<< 7 ||| i.opcode.setWidth 32

/-- Source: `encoding.h`, `jtype32_t::deserialize`. -/
def Jtype32.deserialize (val : Word) : Jtype32 where
  opcode := bitField val 0 7
  rd := bitField val 7 5
  imm12_19 := bitField val 12 8
  imm11 := bitField val 20 1
  imm1_10 := bitField val 21 10
  imm20 := bitField val 31 1

/-- Source: `encoding.cc`, `emit_j_type_instruction`. -/
def emitJTypeInstruction (imm rd opcode : Word) : Word :=
  Jtype32.toWord
    { opcode := opcode.setWidth 7
      rd := rd.setWidth 5
      imm1_10 := (imm >>> 1 &&& 0x3FF).setWidth 10
      imm11 := (imm >>> 11 &&& 0x1).setWidth 1
      imm12_19 := (imm >>> 12 &&& 0xFF).setWidth 8
      imm20 := (imm >>> 20 &&& 0x1).setWidth 1 }

/-- Source: `encoding.h`, `RISCV32_INST_TYPE`. -/
inductive InstType
  | bType | rType | iType | sType | uType | jType
  deriving DecidableEq, Repr

/-! ## Words as sums of fields -/

/-- Masking to the low `n` bits and narrowing is a remainder. -/
theorem toNat_and_mask {w : ℕ} (n : ℕ) (x mask : BitVec w) (hm : mask.toNat = 2 ^ n - 1) :
    ((x &&& mask).setWidth n).toNat = x.toNat % 2 ^ n := by
  rw [BitVec.toNat_setWidth, BitVec.toNat_and, hm, Nat.and_two_pow_sub_one_eq_mod, Nat.mod_mod]

/-- A mask of the bit-field's own width changes nothing. -/
theorem setWidth_and {w : ℕ} (n : ℕ) (x mask : BitVec w) (hm : mask.toNat = 2 ^ n - 1) :
    (x &&& mask).setWidth n = x.setWidth n := by
  apply BitVec.eq_of_toNat_eq
  rw [toNat_and_mask n x mask hm, BitVec.toNat_setWidth]

/-- `(imm >> k) & mask` assigned to a bit-field is that slice of `imm`. -/
theorem setWidth_and_mask (imm : Word) (k n : ℕ) (mask : Word) (hm : mask.toNat = 2 ^ n - 1) :
    (imm >>> k &&& mask).setWidth n = imm.extractLsb' k n := by
  apply BitVec.eq_of_toNat_eq
  rw [toNat_and_mask n _ _ hm, BitVec.toNat_ushiftRight, Nat.shiftRight_eq_div_pow, toNat_extract]

/-- A bit-field read by `deserialize` is that slice of the word. -/
theorem bitField_eq (val : Word) (lo n : ℕ) (hn : n < 64) :
    bitField val lo n = val.extractLsb' lo n := by
  have hmask : (bitMask n).toNat = 2 ^ n - 1 := by
    have hlt : 2 ^ n < 2 ^ 64 := Nat.pow_lt_pow_right (by decide) hn
    have hpos : 0 < 2 ^ n := Nat.two_pow_pos n
    simp only [bitMask, BitVec.toNat_sub, BitVec.toNat_shiftLeft, BitVec.toNat_ofNat,
      Nat.shiftLeft_eq]
    omega
  have hval : ((val >>> lo).setWidth 64).toNat = val.toNat / 2 ^ lo := by
    have h1 := (val >>> lo).isLt
    rw [BitVec.toNat_setWidth, Nat.mod_eq_of_lt (by omega), BitVec.toNat_ushiftRight,
      Nat.shiftRight_eq_div_pow]
  apply BitVec.eq_of_toNat_eq
  rw [bitField, toNat_and_mask n _ _ hmask, hval, toNat_extract]

/-- A bit-field read by `deserialize` is a quotient and a remainder of the word. -/
theorem toNat_bitField (val : Word) (lo n : ℕ) (hn : n < 64) :
    (bitField val lo n).toNat = val.toNat / 2 ^ lo % 2 ^ n := by
  rw [bitField_eq val lo n hn, toNat_extract]

theorem Rtype32.toNat_toWord (i : Rtype32) : i.toWord.toNat =
    2 ^ 7 * (2 ^ 5 * (2 ^ 3 * (2 ^ 5 * (2 ^ 5 * i.funct7.toNat + i.rs2.toNat) + i.rs1.toNat) +
      i.funct3.toNat) + i.rd.toNat) + i.opcode.toNat :=
  toNat_or_last (toNat_or_field 7 (toNat_or_field 12 (toNat_or_field 15 (toNat_or_field 20
    (toNat_setWidth_shl i.funct7 25 (by decide)) i.rs2 (by decide)) i.rs1 (by decide))
    i.funct3 (by decide)) i.rd (by decide)) i.opcode (by decide)

theorem Itype32.toNat_toWord (i : Itype32) : i.toWord.toNat =
    2 ^ 7 * (2 ^ 5 * (2 ^ 3 * (2 ^ 5 * i.imm.toNat + i.rs1.toNat) + i.funct3.toNat) +
      i.rd.toNat) + i.opcode.toNat :=
  toNat_or_last (toNat_or_field 7 (toNat_or_field 12 (toNat_or_field 15
    (toNat_setWidth_shl i.imm 20 (by decide)) i.rs1 (by decide)) i.funct3 (by decide))
    i.rd (by decide)) i.opcode (by decide)

theorem Stype32.toNat_toWord (i : Stype32) : i.toWord.toNat =
    2 ^ 7 * (2 ^ 5 * (2 ^ 3 * (2 ^ 5 * (2 ^ 5 * i.immHi.toNat + i.rs2.toNat) + i.rs1.toNat) +
      i.funct3.toNat) + i.immLo.toNat) + i.opcode.toNat :=
  toNat_or_last (toNat_or_field 7 (toNat_or_field 12 (toNat_or_field 15 (toNat_or_field 20
    (toNat_setWidth_shl i.immHi 25 (by decide)) i.rs2 (by decide)) i.rs1 (by decide))
    i.funct3 (by decide)) i.immLo (by decide)) i.opcode (by decide)

theorem Utype32.toNat_toWord (i : Utype32) : i.toWord.toNat =
    2 ^ 7 * (2 ^ 5 * i.imm.toNat + i.rd.toNat) + i.opcode.toNat :=
  toNat_or_last (toNat_or_field 7 (toNat_setWidth_shl i.imm 12 (by decide)) i.rd (by decide))
    i.opcode (by decide)

theorem Btype32.toNat_toWord (i : Btype32) : i.toWord.toNat =
    2 ^ 7 * (2 ^ 1 * (2 ^ 4 * (2 ^ 3 * (2 ^ 5 * (2 ^ 5 * (2 ^ 6 * i.imm12.toNat +
      i.imm10_5.toNat) + i.rs2.toNat) + i.rs1.toNat) + i.funct3.toNat) + i.imm4_1.toNat) +
      i.imm11.toNat) + i.opcode.toNat :=
  toNat_or_last (toNat_or_field 7 (toNat_or_field 8 (toNat_or_field 12 (toNat_or_field 15
    (toNat_or_field 20 (toNat_or_field 25 (toNat_setWidth_shl i.imm12 31 (by decide))
    i.imm10_5 (by decide)) i.rs2 (by decide)) i.rs1 (by decide)) i.funct3 (by decide))
    i.imm4_1 (by decide)) i.imm11 (by decide)) i.opcode (by decide)

theorem Jtype32.toNat_toWord (i : Jtype32) : i.toWord.toNat =
    2 ^ 7 * (2 ^ 5 * (2 ^ 8 * (2 ^ 1 * (2 ^ 10 * i.imm20.toNat + i.imm1_10.toNat) +
      i.imm11.toNat) + i.imm12_19.toNat) + i.rd.toNat) + i.opcode.toNat :=
  toNat_or_last (toNat_or_field 7 (toNat_or_field 12 (toNat_or_field 20 (toNat_or_field 21
    (toNat_setWidth_shl i.imm20 31 (by decide)) i.imm1_10 (by decide)) i.imm11 (by decide))
    i.imm12_19 (by decide)) i.rd (by decide)) i.opcode (by decide)

/-! ## Structs and words -/

/-- `deserialize` reads back what `operator uint32_t` packed. -/
theorem Stype32.deserialize_toWord (i : Stype32) : deserialize i.toWord = i := by
  have h := i.toNat_toWord
  have := i.opcode.isLt; have := i.immLo.isLt; have := i.funct3.isLt; have := i.rs1.isLt
  have := i.rs2.isLt; have := i.immHi.isLt
  apply Stype32.ext <;> apply BitVec.eq_of_toNat_eq <;>
    rw [deserialize, toNat_bitField _ _ _ (by decide), h] <;> omega

/-- `deserialize` reads back what `operator uint32_t` packed. -/
theorem Utype32.deserialize_toWord (i : Utype32) : deserialize i.toWord = i := by
  have h := i.toNat_toWord
  have := i.opcode.isLt; have := i.rd.isLt; have := i.imm.isLt
  apply Utype32.ext <;> apply BitVec.eq_of_toNat_eq <;>
    rw [deserialize, toNat_bitField _ _ _ (by decide), h] <;> omega

/-- `deserialize` reads back what `operator uint32_t` packed. -/
theorem Btype32.deserialize_toWord (i : Btype32) : deserialize i.toWord = i := by
  have h := i.toNat_toWord
  have := i.opcode.isLt; have := i.imm11.isLt; have := i.imm4_1.isLt; have := i.funct3.isLt
  have := i.rs1.isLt; have := i.rs2.isLt; have := i.imm10_5.isLt; have := i.imm12.isLt
  apply Btype32.ext <;> apply BitVec.eq_of_toNat_eq <;>
    rw [deserialize, toNat_bitField _ _ _ (by decide), h] <;> omega

/-- `deserialize` reads back what `operator uint32_t` packed. -/
theorem Jtype32.deserialize_toWord (i : Jtype32) : deserialize i.toWord = i := by
  have h := i.toNat_toWord
  have := i.opcode.isLt; have := i.rd.isLt; have := i.imm12_19.isLt; have := i.imm11.isLt
  have := i.imm1_10.isLt; have := i.imm20.isLt
  apply Jtype32.ext <;> apply BitVec.eq_of_toNat_eq <;>
    rw [deserialize, toNat_bitField _ _ _ (by decide), h] <;> omega

/-- `operator uint32_t` packs again what `deserialize` read. -/
theorem Stype32.toWord_deserialize (w : Word) : (deserialize w).toWord = w := by
  apply BitVec.eq_of_toNat_eq
  rw [toNat_toWord]
  unfold deserialize
  rw [toNat_bitField w 0 7 (by decide), toNat_bitField w 7 5 (by decide),
    toNat_bitField w 12 3 (by decide), toNat_bitField w 15 5 (by decide),
    toNat_bitField w 20 5 (by decide), toNat_bitField w 25 7 (by decide)]
  -- from the top field down, each turns what is above it into what is from it up
  rw [toNat_div_mod_top w rfl, div_eq_add_field _ 20 5, div_eq_add_field _ 15 5,
    div_eq_add_field _ 12 3, div_eq_add_field _ 7 5, div_eq_add_field _ 0 7, Nat.pow_zero,
    Nat.div_one]

/-- `operator uint32_t` packs again what `deserialize` read. -/
theorem Utype32.toWord_deserialize (w : Word) : (deserialize w).toWord = w := by
  apply BitVec.eq_of_toNat_eq
  rw [toNat_toWord]
  unfold deserialize
  rw [toNat_bitField w 0 7 (by decide), toNat_bitField w 7 5 (by decide),
    toNat_bitField w 12 20 (by decide)]
  rw [toNat_div_mod_top w rfl, div_eq_add_field _ 7 5, div_eq_add_field _ 0 7, Nat.pow_zero,
    Nat.div_one]

/-- `operator uint32_t` packs again what `deserialize` read. -/
theorem Btype32.toWord_deserialize (w : Word) : (deserialize w).toWord = w := by
  apply BitVec.eq_of_toNat_eq
  rw [toNat_toWord]
  unfold deserialize
  rw [toNat_bitField w 0 7 (by decide), toNat_bitField w 7 1 (by decide),
    toNat_bitField w 8 4 (by decide), toNat_bitField w 12 3 (by decide),
    toNat_bitField w 15 5 (by decide), toNat_bitField w 20 5 (by decide),
    toNat_bitField w 25 6 (by decide), toNat_bitField w 31 1 (by decide)]
  rw [toNat_div_mod_top w rfl, div_eq_add_field _ 25 6, div_eq_add_field _ 20 5,
    div_eq_add_field _ 15 5, div_eq_add_field _ 12 3, div_eq_add_field _ 8 4, div_eq_add_field _ 7 1,
    div_eq_add_field _ 0 7, Nat.pow_zero, Nat.div_one]

/-- `operator uint32_t` packs again what `deserialize` read. -/
theorem Jtype32.toWord_deserialize (w : Word) : (deserialize w).toWord = w := by
  apply BitVec.eq_of_toNat_eq
  rw [toNat_toWord]
  unfold deserialize
  rw [toNat_bitField w 0 7 (by decide), toNat_bitField w 7 5 (by decide),
    toNat_bitField w 12 8 (by decide), toNat_bitField w 20 1 (by decide),
    toNat_bitField w 21 10 (by decide), toNat_bitField w 31 1 (by decide)]
  rw [toNat_div_mod_top w rfl, div_eq_add_field _ 21 10, div_eq_add_field _ 20 1,
    div_eq_add_field _ 12 8, div_eq_add_field _ 7 5, div_eq_add_field _ 0 7, Nat.pow_zero,
    Nat.div_one]

/-- A conversion to words and one back that undo each other, on every struct and on every word. -/
structure Inverse {α : Type} (toWord : α → Word) (deserialize : Word → α) : Prop where
  toWord_deserialize : ∀ w, toWord (deserialize w) = w
  deserialize_toWord : ∀ i, deserialize (toWord i) = i

/-- **Structs and words.** The four formats that have both conversions lose nothing either way. -/
theorem conversions_inverse :
    Inverse Stype32.toWord Stype32.deserialize ∧ Inverse Utype32.toWord Utype32.deserialize ∧
      Inverse Btype32.toWord Btype32.deserialize ∧ Inverse Jtype32.toWord Jtype32.deserialize :=
  ⟨⟨Stype32.toWord_deserialize, Stype32.deserialize_toWord⟩,
    ⟨Utype32.toWord_deserialize, Utype32.deserialize_toWord⟩,
    ⟨Btype32.toWord_deserialize, Btype32.deserialize_toWord⟩,
    ⟨Jtype32.toWord_deserialize, Jtype32.deserialize_toWord⟩⟩

/-! ## Emitted words under RV32I -/

/-- The displacement a B-type word shows for the value passed as `imm`: bit 0 is dropped. -/
def bImmediate (imm : Word) : BitVec 13 := imm.extractLsb' 1 12 ++ 0#1

/-- The displacement a J-type word shows for the value passed as `imm`: bit 0 is dropped. -/
def jImmediate (imm : Word) : BitVec 21 := imm.extractLsb' 1 20 ++ 0#1

theorem toNat_bImmediate (imm : Word) :
    (bImmediate imm).toNat = 2 * (imm.toNat / 2 % 2 ^ 12) := by
  rw [bImmediate, toNat_append, toNat_extract]
  simp

theorem toNat_jImmediate (imm : Word) :
    (jImmediate imm).toNat = 2 * (imm.toNat / 2 % 2 ^ 20) := by
  rw [jImmediate, toNat_append, toNat_extract]
  simp

/-- The architectural fields of a word are the ones `btype32_t::deserialize` reads. -/
theorem Btype32.fields_deserialize (w : Word) :
    Rv32i.opcode w = (deserialize w).opcode ∧ Rv32i.funct3 w = (deserialize w).funct3 ∧
      Rv32i.rs1 w = (deserialize w).rs1 ∧ Rv32i.rs2 w = (deserialize w).rs2 ∧
      Rv32i.immB w = (deserialize w).imm12 ++ ((deserialize w).imm11 ++
        ((deserialize w).imm10_5 ++ ((deserialize w).imm4_1 ++ 0#1))) := by
  simp only [deserialize, bitField_eq w _ 7 (by decide), bitField_eq w _ 1 (by decide),
    bitField_eq w _ 4 (by decide), bitField_eq w _ 3 (by decide), bitField_eq w _ 5 (by decide),
    bitField_eq w _ 6 (by decide)]
  exact ⟨rfl, rfl, rfl, rfl, rfl⟩

/-- The architectural fields of a word are the ones `jtype32_t::deserialize` reads. -/
theorem Jtype32.fields_deserialize (w : Word) :
    Rv32i.opcode w = (deserialize w).opcode ∧ Rv32i.rd w = (deserialize w).rd ∧
      Rv32i.immJ w = (deserialize w).imm20 ++ ((deserialize w).imm12_19 ++
        ((deserialize w).imm11 ++ ((deserialize w).imm1_10 ++ 0#1))) := by
  simp only [deserialize, bitField_eq w _ 7 (by decide), bitField_eq w _ 1 (by decide),
    bitField_eq w _ 8 (by decide), bitField_eq w _ 5 (by decide), bitField_eq w _ 10 (by decide)]
  exact ⟨rfl, rfl, rfl⟩

/-- The architectural fields of a word are the ones `utype32_t::deserialize` reads. -/
theorem Utype32.fields_deserialize (w : Word) :
    Rv32i.opcode w = (deserialize w).opcode ∧ Rv32i.rd w = (deserialize w).rd := by
  simp only [deserialize, bitField_eq w _ 7 (by decide), bitField_eq w _ 5 (by decide)]
  exact ⟨rfl, rfl⟩

/-- The fields of a packed B-type word that lie across its own: the upper bits and those of `rd`. -/
theorem Btype32.upper_toWord (i : Btype32) :
    (Rv32i.immU i.toWord).toNat = 2 ^ 3 * (2 ^ 5 * (2 ^ 5 * (2 ^ 6 * i.imm12.toNat +
      i.imm10_5.toNat) + i.rs2.toNat) + i.rs1.toNat) + i.funct3.toNat ∧
      (Rv32i.rd i.toWord).toNat = 2 * i.imm4_1.toNat + i.imm11.toNat := by
  have h := i.toNat_toWord
  have := i.opcode.isLt; have := i.imm11.isLt; have := i.imm4_1.isLt; have := i.funct3.isLt
  have := i.rs1.isLt; have := i.rs2.isLt; have := i.imm10_5.isLt; have := i.imm12.isLt
  rw [Rv32i.toNat_immU, Rv32i.toNat_rd, h]
  omega

/-- The upper bits of a packed J-type word. -/
theorem Jtype32.upper_toWord (i : Jtype32) :
    (Rv32i.immU i.toWord).toNat = 2 ^ 8 * (2 ^ 1 * (2 ^ 10 * i.imm20.toNat + i.imm1_10.toNat) +
      i.imm11.toNat) + i.imm12_19.toNat := by
  have h := i.toNat_toWord
  have := i.opcode.isLt; have := i.rd.isLt; have := i.imm12_19.isLt; have := i.imm11.isLt
  have := i.imm1_10.isLt; have := i.imm20.isLt
  rw [Rv32i.toNat_immU, h]
  omega

section BType

variable (imm rs2 rs1 funct3 opcode : Word)

/-- The bit-fields that `emit_b_type_instruction` assigns. -/
theorem deserialize_emitBType :
    Btype32.deserialize (emitBTypeInstruction imm rs2 rs1 funct3 opcode) =
      { opcode := opcode.setWidth 7
        funct3 := funct3.setWidth 3
        rs2 := rs2.setWidth 5
        rs1 := rs1.setWidth 5
        imm4_1 := imm.extractLsb' 1 4
        imm11 := imm.extractLsb' 11 1
        imm12 := imm.extractLsb' 12 1
        imm10_5 := imm.extractLsb' 5 6 } := by
  rw [emitBTypeInstruction, Btype32.deserialize_toWord, setWidth_and_mask imm 1 4 _ rfl,
    setWidth_and_mask imm 11 1 _ rfl, setWidth_and_mask imm 12 1 _ rfl,
    setWidth_and_mask imm 5 6 _ rfl]

@[simp] theorem opcode_emitBType :
    Rv32i.opcode (emitBTypeInstruction imm rs2 rs1 funct3 opcode) = opcode.setWidth 7 := by
  rw [(Btype32.fields_deserialize _).1, deserialize_emitBType]

@[simp] theorem funct3_emitBType :
    Rv32i.funct3 (emitBTypeInstruction imm rs2 rs1 funct3 opcode) = funct3.setWidth 3 := by
  rw [(Btype32.fields_deserialize _).2.1, deserialize_emitBType]

@[simp] theorem rs1_emitBType :
    Rv32i.rs1 (emitBTypeInstruction imm rs2 rs1 funct3 opcode) = rs1.setWidth 5 := by
  rw [(Btype32.fields_deserialize _).2.2.1, deserialize_emitBType]

@[simp] theorem rs2_emitBType :
    Rv32i.rs2 (emitBTypeInstruction imm rs2 rs1 funct3 opcode) = rs2.setWidth 5 := by
  rw [(Btype32.fields_deserialize _).2.2.2.1, deserialize_emitBType]

/-- The scattered immediate of an emitted branch, put back together. -/
@[simp] theorem immB_emitBType :
    Rv32i.immB (emitBTypeInstruction imm rs2 rs1 funct3 opcode) = bImmediate imm := by
  apply BitVec.eq_of_toNat_eq
  rw [(Btype32.fields_deserialize _).2.2.2.2, deserialize_emitBType, toNat_bImmediate]
  simp only [toNat_append, toNat_extract, BitVec.toNat_ofNat]
  omega

/-- The bits of `rd` are part of the immediate. -/
theorem rd_emitBType_congr (rs2' rs1' funct3' opcode' : Word) :
    Rv32i.rd (emitBTypeInstruction imm rs2 rs1 funct3 opcode) =
      Rv32i.rd (emitBTypeInstruction imm rs2' rs1' funct3' opcode') := by
  apply BitVec.eq_of_toNat_eq
  unfold emitBTypeInstruction
  rw [(Btype32.upper_toWord _).2, (Btype32.upper_toWord _).2]

/-- The upper bits have nothing of the opcode. -/
theorem immU_emitBType_congr (opcode' : Word) :
    Rv32i.immU (emitBTypeInstruction imm rs2 rs1 funct3 opcode) =
      Rv32i.immU (emitBTypeInstruction imm rs2 rs1 funct3 opcode') := by
  apply BitVec.eq_of_toNat_eq
  unfold emitBTypeInstruction
  rw [(Btype32.upper_toWord _).1, (Btype32.upper_toWord _).1]

end BType

section JType

variable (imm rd opcode : Word)

/-- The bit-fields that `emit_j_type_instruction` assigns. -/
theorem deserialize_emitJType :
    Jtype32.deserialize (emitJTypeInstruction imm rd opcode) =
      { opcode := opcode.setWidth 7
        rd := rd.setWidth 5
        imm1_10 := imm.extractLsb' 1 10
        imm11 := imm.extractLsb' 11 1
        imm12_19 := imm.extractLsb' 12 8
        imm20 := imm.extractLsb' 20 1 } := by
  rw [emitJTypeInstruction, Jtype32.deserialize_toWord, setWidth_and_mask imm 1 10 _ rfl,
    setWidth_and_mask imm 11 1 _ rfl, setWidth_and_mask imm 12 8 _ rfl,
    setWidth_and_mask imm 20 1 _ rfl]

@[simp] theorem opcode_emitJType :
    Rv32i.opcode (emitJTypeInstruction imm rd opcode) = opcode.setWidth 7 := by
  rw [(Jtype32.fields_deserialize _).1, deserialize_emitJType]

@[simp] theorem rd_emitJType :
    Rv32i.rd (emitJTypeInstruction imm rd opcode) = rd.setWidth 5 := by
  rw [(Jtype32.fields_deserialize _).2.1, deserialize_emitJType]

/-- The scattered immediate of an emitted jump, put back together. -/
@[simp] theorem immJ_emitJType :
    Rv32i.immJ (emitJTypeInstruction imm rd opcode) = jImmediate imm := by
  apply BitVec.eq_of_toNat_eq
  rw [(Jtype32.fields_deserialize _).2.2, deserialize_emitJType, toNat_jImmediate]
  simp only [toNat_append, toNat_extract, BitVec.toNat_ofNat]
  omega

/-- The upper bits of an emitted jump are its immediate. -/
theorem immU_emitJType_congr (rd' opcode' : Word) :
    Rv32i.immU (emitJTypeInstruction imm rd opcode) =
      Rv32i.immU (emitJTypeInstruction imm rd' opcode') := by
  apply BitVec.eq_of_toNat_eq
  unfold emitJTypeInstruction
  rw [Jtype32.upper_toWord, Jtype32.upper_toWord]

end JType

/-- The architectural fields of a packed I-type word are the fields it was packed from. -/
theorem Itype32.fields_toWord (i : Itype32) :
    Rv32i.opcode i.toWord = i.opcode ∧ Rv32i.rd i.toWord = i.rd ∧
      Rv32i.funct3 i.toWord = i.funct3 ∧ Rv32i.rs1 i.toWord = i.rs1 ∧
      Rv32i.immI i.toWord = i.imm := by
  have h := i.toNat_toWord
  have := i.opcode.isLt; have := i.rd.isLt; have := i.funct3.isLt; have := i.rs1.isLt
  have := i.imm.isLt
  refine ⟨?_, ?_, ?_, ?_, ?_⟩ <;> apply BitVec.eq_of_toNat_eq
  · rw [Rv32i.toNat_opcode, h]; omega
  · rw [Rv32i.toNat_rd, h]; omega
  · rw [Rv32i.toNat_funct3, h]; omega
  · rw [Rv32i.toNat_rs1, h]; omega
  · rw [Rv32i.toNat_immI, h]; omega

/-- The architectural fields of a packed R-type word are the fields it was packed from. -/
theorem Rtype32.fields_toWord (i : Rtype32) :
    Rv32i.opcode i.toWord = i.opcode ∧ Rv32i.rd i.toWord = i.rd ∧
      Rv32i.funct3 i.toWord = i.funct3 ∧ Rv32i.rs1 i.toWord = i.rs1 ∧
      Rv32i.rs2 i.toWord = i.rs2 ∧ Rv32i.funct7 i.toWord = i.funct7 := by
  have h := i.toNat_toWord
  have := i.opcode.isLt; have := i.rd.isLt; have := i.funct3.isLt; have := i.rs1.isLt
  have := i.rs2.isLt; have := i.funct7.isLt
  refine ⟨?_, ?_, ?_, ?_, ?_, ?_⟩ <;> apply BitVec.eq_of_toNat_eq
  · rw [Rv32i.toNat_opcode, h]; omega
  · rw [Rv32i.toNat_rd, h]; omega
  · rw [Rv32i.toNat_funct3, h]; omega
  · rw [Rv32i.toNat_rs1, h]; omega
  · rw [Rv32i.toNat_rs2, h]; omega
  · rw [Rv32i.toNat_funct7, h]; omega

/-- The architectural fields of a packed S-type word are the fields it was packed from. -/
theorem Stype32.fields_toWord (i : Stype32) :
    Rv32i.opcode i.toWord = i.opcode ∧ Rv32i.funct3 i.toWord = i.funct3 ∧
      Rv32i.rs1 i.toWord = i.rs1 ∧ Rv32i.rs2 i.toWord = i.rs2 ∧
      Rv32i.immS i.toWord = i.immHi ++ i.immLo := by
  have h := i.toNat_toWord
  have := i.opcode.isLt; have := i.immLo.isLt; have := i.funct3.isLt; have := i.rs1.isLt
  have := i.rs2.isLt; have := i.immHi.isLt
  refine ⟨?_, ?_, ?_, ?_, ?_⟩ <;> apply BitVec.eq_of_toNat_eq
  · rw [Rv32i.toNat_opcode, h]; omega
  · rw [Rv32i.toNat_funct3, h]; omega
  · rw [Rv32i.toNat_rs1, h]; omega
  · rw [Rv32i.toNat_rs2, h]; omega
  · rw [Rv32i.toNat_immS, h, toNat_append]; omega

section IType

variable (rd rs1 imm funct3 opcode : Word)

@[simp] theorem opcode_emitIType :
    Rv32i.opcode (emitITypeInstruction rd rs1 imm funct3 opcode) = opcode.setWidth 7 :=
  (Itype32.fields_toWord _).1

@[simp] theorem rd_emitIType :
    Rv32i.rd (emitITypeInstruction rd rs1 imm funct3 opcode) = rd.setWidth 5 :=
  (Itype32.fields_toWord _).2.1

@[simp] theorem funct3_emitIType :
    Rv32i.funct3 (emitITypeInstruction rd rs1 imm funct3 opcode) = funct3.setWidth 3 :=
  (Itype32.fields_toWord _).2.2.1

@[simp] theorem rs1_emitIType :
    Rv32i.rs1 (emitITypeInstruction rd rs1 imm funct3 opcode) = rs1.setWidth 5 :=
  (Itype32.fields_toWord _).2.2.2.1

@[simp] theorem immI_emitIType :
    Rv32i.immI (emitITypeInstruction rd rs1 imm funct3 opcode) = imm.setWidth 12 :=
  (Itype32.fields_toWord _).2.2.2.2

end IType

section UType

variable (imm rd opcode : Word)

theorem toNat_emitUType : (emitUTypeInstruction imm rd opcode).toNat =
    2 ^ 7 * (2 ^ 5 * (imm.setWidth 20).toNat + (rd.setWidth 5).toNat) + (opcode.setWidth 7).toNat := by
  have hmask : ∀ (n : ℕ) (x mask : Word), n ≤ 32 → mask.toNat = 2 ^ n - 1 →
      x &&& mask = (x.setWidth n).setWidth 32 := by
    intro n x mask hn hm
    have hlt : (x.setWidth n).toNat < 2 ^ 32 :=
      Nat.lt_of_lt_of_le (x.setWidth n).isLt (Nat.pow_le_pow_right (by decide) hn)
    apply BitVec.eq_of_toNat_eq
    rw [BitVec.toNat_setWidth 32, Nat.mod_eq_of_lt hlt, BitVec.toNat_and, hm,
      Nat.and_two_pow_sub_one_eq_mod, BitVec.toNat_setWidth]
  unfold emitUTypeInstruction
  rw [hmask 20 imm _ (by decide) rfl, hmask 5 rd _ (by decide) rfl, hmask 7 opcode _ (by decide) rfl]
  exact toNat_or_last (toNat_or_field 7 (toNat_setWidth_shl (imm.setWidth 20) 12 (by decide))
    (rd.setWidth 5) (by decide)) (opcode.setWidth 7) (by decide)

/-- The architectural fields of an emitted U-type word. -/
theorem fields_emitUType :
    Rv32i.opcode (emitUTypeInstruction imm rd opcode) = opcode.setWidth 7 ∧
      Rv32i.rd (emitUTypeInstruction imm rd opcode) = rd.setWidth 5 ∧
      Rv32i.immU (emitUTypeInstruction imm rd opcode) = imm.setWidth 20 := by
  have h := toNat_emitUType imm rd opcode
  have := (imm.setWidth 20).isLt; have := (rd.setWidth 5).isLt; have := (opcode.setWidth 7).isLt
  refine ⟨?_, ?_, ?_⟩ <;> apply BitVec.eq_of_toNat_eq
  · rw [Rv32i.toNat_opcode, h]; omega
  · rw [Rv32i.toNat_rd, h]; omega
  · rw [Rv32i.toNat_immU, h]; omega

end UType

section SType

variable (rs2 rs1 imm funct3 opcode : Word)

@[simp] theorem opcode_emitSType :
    Rv32i.opcode (emitSTypeInstruction rs2 rs1 imm funct3 opcode) = opcode.setWidth 7 :=
  (Stype32.fields_toWord _).1

@[simp] theorem funct3_emitSType :
    Rv32i.funct3 (emitSTypeInstruction rs2 rs1 imm funct3 opcode) = funct3.setWidth 3 :=
  (Stype32.fields_toWord _).2.1.trans (setWidth_and 3 funct3 _ rfl)

@[simp] theorem rs1_emitSType :
    Rv32i.rs1 (emitSTypeInstruction rs2 rs1 imm funct3 opcode) = rs1.setWidth 5 :=
  (Stype32.fields_toWord _).2.2.1.trans (setWidth_and 5 rs1 _ rfl)

@[simp] theorem rs2_emitSType :
    Rv32i.rs2 (emitSTypeInstruction rs2 rs1 imm funct3 opcode) = rs2.setWidth 5 :=
  (Stype32.fields_toWord _).2.2.2.1.trans (setWidth_and 5 rs2 _ rfl)

/-- The two parts of the immediate come together again. -/
@[simp] theorem immS_emitSType :
    Rv32i.immS (emitSTypeInstruction rs2 rs1 imm funct3 opcode) = imm.setWidth 12 := by
  unfold emitSTypeInstruction
  rw [(Stype32.fields_toWord _).2.2.2.2, setWidth_and 5 imm _ rfl, setWidth_and_mask imm 5 7 _ rfl]
  apply BitVec.eq_of_toNat_eq
  rw [toNat_append, toNat_extract, BitVec.toNat_setWidth, BitVec.toNat_setWidth]
  omega

end SType

section RType

variable (funct7 rs1 rs2 funct3 rd opcode : Word)

@[simp] theorem opcode_emitRType :
    Rv32i.opcode (emitRTypeInstruction funct7 rs1 rs2 funct3 rd opcode) = opcode.setWidth 7 :=
  (Rtype32.fields_toWord _).1

@[simp] theorem rd_emitRType :
    Rv32i.rd (emitRTypeInstruction funct7 rs1 rs2 funct3 rd opcode) = rd.setWidth 5 :=
  (Rtype32.fields_toWord _).2.1

@[simp] theorem funct3_emitRType :
    Rv32i.funct3 (emitRTypeInstruction funct7 rs1 rs2 funct3 rd opcode) = funct3.setWidth 3 :=
  (Rtype32.fields_toWord _).2.2.1

@[simp] theorem rs1_emitRType :
    Rv32i.rs1 (emitRTypeInstruction funct7 rs1 rs2 funct3 rd opcode) = rs1.setWidth 5 :=
  (Rtype32.fields_toWord _).2.2.2.1

@[simp] theorem rs2_emitRType :
    Rv32i.rs2 (emitRTypeInstruction funct7 rs1 rs2 funct3 rd opcode) = rs2.setWidth 5 :=
  (Rtype32.fields_toWord _).2.2.2.2.1

@[simp] theorem funct7_emitRType :
    Rv32i.funct7 (emitRTypeInstruction funct7 rs1 rs2 funct3 rd opcode) = funct7.setWidth 7 :=
  (Rtype32.fields_toWord _).2.2.2.2.2

end RType

/-! ## The emitters against the formats -/

/-- An even displacement in the reach of a branch comes out of the bits that keep it. -/
theorem toInt_bImmediate_ofInt {imm : ℤ} (heven : 2 ∣ imm) (hlo : -4096 ≤ imm) (hhi : imm ≤ 4094) :
    (bImmediate (BitVec.ofInt 32 imm)).toInt = imm := by
  rw [toInt_eq_iff (by decide) (by omega) (by omega), toNat_bImmediate, BitVec.toNat_ofInt]
  push_cast
  omega

/-- An even displacement in the reach of a jump comes out of the bits that keep it. -/
theorem toInt_jImmediate_ofInt {imm : ℤ} (heven : 2 ∣ imm) (hlo : -2 ^ 20 ≤ imm)
    (hhi : imm ≤ 2 ^ 20 - 2) : (jImmediate (BitVec.ofInt 32 imm)).toInt = imm := by
  rw [toInt_eq_iff (by decide) (by omega) (by omega), toNat_jImmediate, BitVec.toNat_ofInt]
  push_cast
  omega

/-- What the words of the emitters show under RV32I: every field is its argument, cut to the width of
the field, whatever the other arguments are. The immediates of branches and jumps have no bit 0. -/
structure EmittersExact : Prop where
  rType : ∀ funct7 rs1 rs2 funct3 rd opcode : Word,
    let w := emitRTypeInstruction funct7 rs1 rs2 funct3 rd opcode
    Rv32i.funct7 w = funct7.setWidth 7 ∧ Rv32i.rs2 w = rs2.setWidth 5 ∧
      Rv32i.rs1 w = rs1.setWidth 5 ∧ Rv32i.funct3 w = funct3.setWidth 3 ∧
      Rv32i.rd w = rd.setWidth 5 ∧ Rv32i.opcode w = opcode.setWidth 7
  iType : ∀ rd rs1 imm funct3 opcode : Word,
    let w := emitITypeInstruction rd rs1 imm funct3 opcode
    Rv32i.immI w = imm.setWidth 12 ∧ Rv32i.rs1 w = rs1.setWidth 5 ∧
      Rv32i.funct3 w = funct3.setWidth 3 ∧ Rv32i.rd w = rd.setWidth 5 ∧
      Rv32i.opcode w = opcode.setWidth 7
  sType : ∀ rs2 rs1 imm funct3 opcode : Word,
    let w := emitSTypeInstruction rs2 rs1 imm funct3 opcode
    Rv32i.immS w = imm.setWidth 12 ∧ Rv32i.rs2 w = rs2.setWidth 5 ∧
      Rv32i.rs1 w = rs1.setWidth 5 ∧ Rv32i.funct3 w = funct3.setWidth 3 ∧
      Rv32i.opcode w = opcode.setWidth 7
  uType : ∀ imm rd opcode : Word,
    let w := emitUTypeInstruction imm rd opcode
    Rv32i.immU w = imm.setWidth 20 ∧ Rv32i.rd w = rd.setWidth 5 ∧
      Rv32i.opcode w = opcode.setWidth 7
  jType : ∀ imm rd opcode : Word,
    let w := emitJTypeInstruction imm rd opcode
    Rv32i.immJ w = imm.extractLsb' 1 20 ++ 0#1 ∧ Rv32i.rd w = rd.setWidth 5 ∧
      Rv32i.opcode w = opcode.setWidth 7
  bType : ∀ imm rs2 rs1 funct3 opcode : Word,
    let w := emitBTypeInstruction imm rs2 rs1 funct3 opcode
    Rv32i.immB w = imm.extractLsb' 1 12 ++ 0#1 ∧ Rv32i.funct3 w = funct3.setWidth 3 ∧
      Rv32i.opcode w = opcode.setWidth 7
  /-- The displacement of a branch, with its sign. -/
  branch : ∀ (imm : ℤ) (rs2 rs1 funct3 opcode : Word), 2 ∣ imm → -4096 ≤ imm → imm ≤ 4094 →
    (Rv32i.immB (emitBTypeInstruction (BitVec.ofInt 32 imm) rs2 rs1 funct3 opcode)).toInt = imm
  /-- The displacement of a jump, with its sign. -/
  jump : ∀ (imm : ℤ) (rd opcode : Word), 2 ∣ imm → -2 ^ 20 ≤ imm → imm ≤ 2 ^ 20 - 2 →
    (Rv32i.immJ (emitJTypeInstruction (BitVec.ofInt 32 imm) rd opcode)).toInt = imm

/-- **The emitters against the formats.** -/
theorem emitters_exact : EmittersExact where
  rType funct7 rs1 rs2 funct3 rd opcode := by simp
  iType rd rs1 imm funct3 opcode := by simp
  sType rs2 rs1 imm funct3 opcode := by simp
  uType imm rd opcode := by
    obtain ⟨hopcode, hrd, himm⟩ := fields_emitUType imm rd opcode
    exact ⟨himm, hrd, hopcode⟩
  jType imm rd opcode := ⟨immJ_emitJType imm rd opcode, by simp⟩
  bType imm rs2 rs1 funct3 opcode := ⟨immB_emitBType imm rs2 rs1 funct3 opcode, by simp⟩
  branch imm rs2 rs1 funct3 opcode heven hlo hhi := by
    rw [immB_emitBType]
    exact toInt_bImmediate_ofInt heven hlo hhi
  jump imm rd opcode heven hlo hhi := by
    rw [immJ_emitJType]
    exact toInt_jImmediate_ofInt heven hlo hhi

end RiscvAssembler
