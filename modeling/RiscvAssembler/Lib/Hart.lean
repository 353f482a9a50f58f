import RiscvAssembler.Lib.Bytes
import RiscvAssembler.Lib.Rv32i
import Mathlib.Logic.Function.Basic

/-!
# Executing RV32I

A hart with thirty-two registers and a byte-addressed memory, and what each instruction of
`Rv32i.Instr` does to them. It is written from the instruction set alone.

* `Context` is what an instruction works on, `Env` what the hart runs in: the memory that cannot be
  written, and what an `ecall` does.
* `Instr.effect` and `Instr.next` are the two halves of an instruction: what it leaves in the
  registers and the memory, and where execution goes on. `Hart.step` fetches, decodes and executes;
  it is `none` where the hart takes an exception.
* `steps` iterates a machine that can stop. `steps_map` carries a run of one machine over to another
  along a map of their states.
* `Image`: words that lie in memory from a base address on. A hart that runs in a read-only image
  never changes it (`Image.of_effect`), so it keeps executing those words (`step_of_image`).
-/

namespace Rv32i

open Bytes

/-! ## Registers and memory -/

/-- The registers and the memory. -/
structure Context where
  regs : Reg → Word
  mem : Word → Byte

namespace Context

/-- The value of a register; `x0` is zero. -/
def read (c : Context) (r : Reg) : Word := if r = 0 then 0 else c.regs r

/-- Set a register; nothing is left in `x0`. -/
def write (c : Context) (r : Reg) (value : Word) : Context :=
  if r = 0 then c else { c with regs := Function.update c.regs r value }

/-- The `n` bytes from an address on. -/
def bytes (c : Context) (a : Word) (n : ℕ) : List Byte :=
  (List.range n).map fun i => c.mem (a + BitVec.ofNat 32 i)

/-- The number in the `n` bytes from an address on, least significant byte first. -/
def fetch (c : Context) (a : Word) (n : ℕ) : ℕ := ofLE (c.bytes a n)

/-- Put the `n` low bytes of a value at an address. -/
def put (c : Context) (a : Word) (n : ℕ) (value : Word) : Context :=
  { c with mem := fun b => if (b - a).toNat < n then byteAt value.toNat (b - a).toNat else c.mem b }

@[simp] theorem mem_write (c : Context) (r : Reg) (value : Word) : (c.write r value).mem = c.mem := by
  unfold write
  split_ifs <;> rfl

end Context

/-- What a hart runs in: the addresses that can be written, and what an `ecall` leaves, which is
nothing where it does not return. -/
structure Env where
  writable : Word → Bool
  call : Context → Option Context
  /-- An `ecall` keeps to the memory that can be written. -/
  call_mem : ∀ {c c'}, call c = some c' → ∀ a, writable a = false → c'.mem a = c.mem a

/-- Store the `n` low bytes of a value, if all of them can be written. -/
def Env.store (env : Env) (c : Context) (a : Word) (n : ℕ) (value : Word) : Option Context :=
  if (List.range n).all fun i => env.writable (a + BitVec.ofNat 32 i) then some (c.put a n value)
  else none

/-! ## Instructions -/

/-- Whether a branch is taken. -/
def BranchOp.taken (x y : Word) : BranchOp → Bool
  | .beq => x = y
  | .bne => x ≠ y
  | .blt => x.slt y
  | .bge => y.sle x
  | .bltu => x.ult y
  | .bgeu => y.ule x

/-- The value that is loaded from an address. -/
def LoadOp.value (c : Context) (a : Word) : LoadOp → Word
  | .lb => (BitVec.ofNat 8 (c.fetch a 1)).signExtend 32
  | .lh => (BitVec.ofNat 16 (c.fetch a 2)).signExtend 32
  | .lw => BitVec.ofNat 32 (c.fetch a 4)
  | .lbu => BitVec.ofNat 32 (c.fetch a 1)
  | .lhu => BitVec.ofNat 32 (c.fetch a 2)

/-- How many bytes are stored. -/
def StoreOp.size : StoreOp → ℕ
  | .sb => 1
  | .sh => 2
  | .sw => 4

/-- Register-immediate arithmetic, with the immediate extended. -/
def ImmOp.value (x imm : Word) : ImmOp → Word
  | .addi => x + imm
  | .slti => if x.slt imm then 1 else 0
  | .sltiu => if x.ult imm then 1 else 0
  | .xori => x ^^^ imm
  | .ori => x ||| imm
  | .andi => x &&& imm

/-- Shifts by a constant. -/
def ShiftOp.value (x : Word) (shamt : BitVec 5) : ShiftOp → Word
  | .slli => x <<< shamt.toNat
  | .srli => x >>> shamt.toNat
  | .srai => x.sshiftRight shamt.toNat

/-- Register-register arithmetic; a shift takes the low five bits. -/
def RegOp.value (x y : Word) : RegOp → Word
  | .add => x + y
  | .sub => x - y
  | .sll => x <<< (y.toNat % 32)
  | .slt => if x.slt y then 1 else 0
  | .sltu => if x.ult y then 1 else 0
  | .xor => x ^^^ y
  | .srl => x >>> (y.toNat % 32)
  | .sra => x.sshiftRight (y.toNat % 32)
  | .or => x ||| y
  | .and => x &&& y

namespace Instr

/-- What the instruction at an address leaves in the registers and the memory. -/
def effect (env : Env) (pc : Word) (c : Context) : Instr → Option Context
  | .lui rd imm => some (c.write rd (imm ++ (0 : BitVec 12)))
  | .auipc rd imm => some (c.write rd (pc + (imm ++ (0 : BitVec 12))))
  | .jal rd _ => some (c.write rd (pc + 4))
  | .jalr rd _ _ => some (c.write rd (pc + 4))
  | .branch _ _ _ _ => some c
  | .load op rd rs1 imm => some (c.write rd (op.value c (c.read rs1 + imm.signExtend 32)))
  | .store op rs2 rs1 imm => env.store c (c.read rs1 + imm.signExtend 32) op.size (c.read rs2)
  | .immediate op rd rs1 imm => some (c.write rd (op.value (c.read rs1) (imm.signExtend 32)))
  | .shift op rd rs1 shamt => some (c.write rd (op.value (c.read rs1) shamt))
  | .register op rd rs1 rs2 => some (c.write rd (op.value (c.read rs1) (c.read rs2)))
  | .fence _ _ _ => some c
  | .ecall => env.call c
  | .ebreak => none

/-- Where execution goes on after the instruction at an address. -/
def next (pc : Word) (c : Context) : Instr → Word
  | .jal _ imm => pc + imm.signExtend 32
  | .jalr _ rs1 imm => (c.read rs1 + imm.signExtend 32) &&& ~~~1
  | .branch op rs1 rs2 imm =>
    if op.taken (c.read rs1) (c.read rs2) then pc + imm.signExtend 32 else pc + 4
  | _ => pc + 4

end Instr

/-- A hart: the address of the next instruction, the registers and the memory. -/
structure Hart where
  pc : Word
  context : Context

/-- Fetch, decode and execute one instruction. There is no step on a word that is no instruction, a
store to memory that cannot be written, an `ebreak`, an `ecall` that does not return, and a target
that is not aligned. -/
def Hart.step (env : Env) (h : Hart) : Option Hart :=
  (decode (BitVec.ofNat 32 (h.context.fetch h.pc 4))).bind fun i =>
    if (i.next h.pc h.context).toNat % 4 = 0 then
      (i.effect env h.pc h.context).map fun c => ⟨i.next h.pc h.context, c⟩
    else none

/-! ## Machines that can stop -/

section

variable {S T : Type*}

/-- The state after `n` steps, if the machine does not stop before. -/
def steps (step : S → Option S) : ℕ → S → Option S
  | 0, s => some s
  | n + 1, s => (step s).bind (steps step n)

/-- The machine, as long as it is where `inside` holds. -/
def confined (inside : S → Bool) (step : S → Option S) (s : S) : Option S :=
  if inside s then step s else none

/-- **Lock step.** If each step of one machine is a step of the other along a map of the states, and
steps keep to the states for which that is known, so is each run. -/
theorem steps_map {step : S → Option S} {step' : T → Option T} {f : S → T} {P : S → Prop}
    (hstep : ∀ s, P s → step' (f s) = (step s).map f) (hkeep : ∀ s t, P s → step s = some t → P t)
    (n : ℕ) {s : S} (hs : P s) : steps step' n (f s) = (steps step n s).map f := by
  induction n generalizing s with
  | zero => rfl
  | succ n ih =>
      rw [steps, steps, hstep s hs]
      cases ht : step s with
      | none => rfl
      | some t =>
          have hrun := ih (hkeep s t hs ht)
          simpa using hrun

end

/-! ## Images -/

section

variable {env : Env} {base : Word} {ws : List Word} {c c' : Context}

theorem Context.bytes_add (c : Context) (a : Word) (m n : ℕ) :
    c.bytes a (m + n) = c.bytes a m ++ c.bytes (a + BitVec.ofNat 32 m) n := by
  simp only [bytes, List.range_add, List.map_append, List.map_map]
  congr 1
  refine List.map_congr_left fun i _ => ?_
  rw [Function.comp_apply, BitVec.ofNat_add, BitVec.add_assoc]

/-- An instruction keeps to the memory that can be written. -/
theorem Instr.effect_mem {i : Instr} {pc : Word} (h : i.effect env pc c = some c') {a : Word}
    (ha : env.writable a = false) : c'.mem a = c.mem a := by
  cases i with
  | store op rs2 rs1 imm =>
      simp only [effect, Env.store] at h
      split_ifs at h with hall
      cases h
      simp only [Context.put]
      split_ifs with hin
      · -- a byte of the store can be written
        have hbyte := List.all_eq_true.mp hall _ (List.mem_range.mpr hin)
        rw [BitVec.ofNat_toNat, BitVec.setWidth_eq, BitVec.add_comm, BitVec.sub_add_cancel, ha] at hbyte
        cases hbyte
      · rfl
  | ecall => exact env.call_mem h a ha
  | ebreak => cases h
  | _ =>
      cases h
      simp

/-- The words, in memory from an address on. -/
def Image (base : Word) (ws : List Word) (c : Context) : Prop :=
  c.bytes base (4 * ws.length) = ws.flatMap fun w => leBytes 4 w.toNat

/-- None of the `n` bytes from an address on can be written. -/
def ReadOnly (env : Env) (base : Word) (n : ℕ) : Prop :=
  ∀ i < n, env.writable (base + BitVec.ofNat 32 i) = false

/-- A read-only image stays. -/
theorem Image.of_effect (h : Image base ws c) (hro : ReadOnly env base (4 * ws.length)) {i : Instr} {pc : Word}
    (heff : i.effect env pc c = some c') : Image base ws c' := by
  rw [Image, ← h]
  refine List.map_congr_left fun j hj => ?_
  exact Instr.effect_mem heff (hro j (List.mem_range.mp hj))

/-- Word `k` of an image is fetched from its address. -/
theorem Image.fetch (h : Image base ws c) {k : ℕ} (hk : k < ws.length) :
    BitVec.ofNat 32 (c.fetch (base + BitVec.ofNat 32 (4 * k)) 4) = ws[k] := by
  have hword := slice_flatMap (fun w : Word => leBytes 4 w.toNat) (w := 4) (by simp) [] ws hk
  have hsplit : 4 * ws.length = 4 * k + (4 + 4 * (ws.length - k - 1)) := by omega
  rw [List.nil_append, ← h, hsplit, Context.bytes_add, Context.bytes_add,
    slice_append (by simp [Context.bytes, Nat.mul_comm]) (by simp [Context.bytes])] at hword
  rw [Context.fetch, Option.some.inj hword, ofLE_leBytes_of_lt (ws[k].isLt), BitVec.ofNat_toNat,
    BitVec.setWidth_eq]

/-- The state of a hart that is at word `k` of an image. -/
def place (base : Word) (s : ℕ × Context) : Hart := ⟨base + BitVec.ofNat 32 (4 * s.1), s.2⟩

/-- The hart is at one of the `n` bytes from an address on. -/
def inside (base : Word) (n : ℕ) (h : Hart) : Bool := (h.pc - base).toNat < n

theorem toNat_pc_place (base : Word) (s : ℕ × Context) :
    (place base s).pc.toNat = (base.toNat + 4 * s.1) % 2 ^ 32 := by
  show (base + BitVec.ofNat 32 (4 * s.1)).toNat = _
  rw [BitVec.toNat_add, BitVec.toNat_ofNat, Nat.add_mod_mod]

theorem inside_place {n k : ℕ} (hn : 4 * n < 2 ^ 32) (hk : k ≤ n) :
    inside base (4 * n) (place base (k, c)) = decide (k < n) := by
  have hoff : base + BitVec.ofNat 32 (4 * k) - base = BitVec.ofNat 32 (4 * k) := by
    rw [BitVec.add_comm, BitVec.add_sub_cancel]
  simp only [inside, place, hoff, BitVec.toNat_ofNat]
  rw [Nat.mod_eq_of_lt (by omega), decide_eq_decide]
  omega

/-- A program counted in instructions does what the instruction `i` does at its address. -/
def Executes (env : Env) (base : Word) (n : ℕ) (i : Instr) (step : ℕ × Context → Option (ℕ × Context))
    (k : ℕ) (c : Context) : Prop :=
  match i.effect env (place base (k, c)).pc c with
  | none => step (k, c) = none
  | some c' => ∃ k' ≤ n, step (k, c) = some (k', c') ∧
      i.next (place base (k, c)).pc c = (place base (k', c')).pc

section

variable {n : ℕ} {i : Instr} {step : ℕ × Context → Option (ℕ × Context)} {k : ℕ}

/-- The hart does one such step as the program does. -/
theorem Executes.execute (h : Executes env base n i step k c) (hbase : base.toNat % 4 = 0) :
    (if (i.next (place base (k, c)).pc c).toNat % 4 = 0 then
      (i.effect env (place base (k, c)).pc c).map fun c' => ⟨i.next (place base (k, c)).pc c, c'⟩
    else none) = (step (k, c)).map (place base) := by
  unfold Executes at h
  cases heff : i.effect env (place base (k, c)).pc c with
  | none =>
      rw [heff] at h
      have hstep : step (k, c) = none := h
      rw [hstep]
      simp
  | some c' =>
      rw [heff] at h
      obtain ⟨k', -, hstep, hnext⟩ := h
      have haligned : (place base (k', c')).pc.toNat % 4 = 0 := by
        rw [toNat_pc_place]
        omega
      simp only [hnext, if_pos haligned, hstep, Option.map_some]
      rfl

/-- What such a step leaves. -/
theorem Executes.leaves (h : Executes env base n i step k c) {k' : ℕ}
    (hstep : step (k, c) = some (k', c')) :
    k' ≤ n ∧ i.effect env (place base (k, c)).pc c = some c' := by
  unfold Executes at h
  cases heff : i.effect env (place base (k, c)).pc c with
  | none =>
      rw [heff] at h
      cases hstep.symm.trans h
  | some d =>
      rw [heff] at h
      obtain ⟨l, hl, hstep', -⟩ := h
      cases hstep.symm.trans hstep'
      exact ⟨hl, rfl⟩

end

/-- **Running an image.** A program counted in instructions, each of which does what the word in its
place decodes to, runs in lock step with the hart that has the words in read-only memory: both go the
same way, and both stop at the same instruction or leave the program at the same place. -/
theorem steps_of_image {step : ℕ × Context → Option (ℕ × Context)} (hbase : base.toNat % 4 = 0)
    (hlen : 4 * ws.length < 2 ^ 32) (hro : ReadOnly env base (4 * ws.length))
    (hexec : ∀ k c (hk : k < ws.length), Image base ws c →
      ∃ i, decode ws[k] = some i ∧ Executes env base ws.length i step k c)
    (hend : ∀ k c, ws.length ≤ k → step (k, c) = none) (n : ℕ) {k : ℕ} {c : Context}
    (hk : k ≤ ws.length) (himage : Image base ws c) :
    steps (confined (inside base (4 * ws.length)) (Hart.step env)) n (place base (k, c)) =
      (steps step n (k, c)).map (place base) := by
  refine steps_map (P := fun s => s.1 ≤ ws.length ∧ Image base ws s.2) ?_ ?_ n ⟨hk, himage⟩
  · rintro ⟨k, c⟩ ⟨hk, himage⟩
    rw [confined, inside_place hlen hk]
    rcases Nat.lt_or_ge k ws.length with hlt | hge
    · obtain ⟨i, hdec, hi⟩ := hexec k c hlt himage
      have hfetch : BitVec.ofNat 32 ((place base (k, c)).context.fetch (place base (k, c)).pc 4) = ws[k] :=
        himage.fetch hlt
      rw [decide_eq_true hlt, if_pos rfl, Hart.step, hfetch, hdec, Option.bind_some, ← hi.execute hbase]
      rfl
    · rw [decide_eq_false (by omega), hend k c hge]
      rfl
  · rintro ⟨k, c⟩ ⟨k', c'⟩ ⟨hk, himage⟩ hstep
    rcases Nat.lt_or_ge k ws.length with hlt | hge
    · obtain ⟨i, -, hi⟩ := hexec k c hlt himage
      obtain ⟨hle, heff⟩ := hi.leaves hstep
      exact ⟨hle, himage.of_effect hro heff⟩
    · cases hstep.symm.trans (hend k c hge)

end

end Rv32i
