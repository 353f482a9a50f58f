import Mathlib.Data.Nat.ModEq
import Mathlib.Data.Nat.Prime.Basic

/-!
# FNV-1a hashes

The hash of a byte string, of any width and for any odd prime: a byte is xored into the hash, and the hash is
multiplied by the prime.

* `hash_append_inj`: what is behind two strings, if it is the same, neither makes their hashes equal nor
  different.
* `hash_eq_iff_of_one_byte`: strings that differ in one byte have different hashes.
-/

namespace Fnv

variable {w : ℕ} {prime basis : BitVec w}

/-- One byte. -/
def step (prime hash : BitVec w) (c : BitVec 8) : BitVec w := (hash ^^^ c.setWidth w) * prime

/-- The hash of a byte string. -/
def hash (prime basis : BitVec w) (s : List (BitVec 8)) : BitVec w := s.foldl (step prime) basis

theorem hash_append (prime basis : BitVec w) (s t : List (BitVec 8)) :
    hash prime basis (s ++ t) = hash prime (hash prime basis s) t := List.foldl_append

/-- An odd factor can be cancelled. -/
theorem mul_right_inj (hodd : prime.toNat % 2 = 1) {x y : BitVec w} : x * prime = y * prime ↔ x = y := by
  constructor
  · intro h
    have hmod : x.toNat * prime.toNat ≡ y.toNat * prime.toNat [MOD 2 ^ w] := by
      rw [Nat.ModEq, ← BitVec.toNat_mul, ← BitVec.toNat_mul, h]
    have hcoprime : Nat.Coprime (2 ^ w) prime.toNat :=
      Nat.Coprime.pow_left w (Nat.coprime_two_left.mpr (Nat.odd_iff.mpr hodd))
    have hxy := Nat.ModEq.cancel_right_of_coprime hcoprime hmod
    rw [Nat.ModEq, Nat.mod_eq_of_lt x.isLt, Nat.mod_eq_of_lt y.isLt] at hxy
    exact BitVec.eq_of_toNat_eq hxy
  · intro h
    rw [h]

theorem step_left_inj (hodd : prime.toNat % 2 = 1) {x y : BitVec w} (c : BitVec 8) :
    step prime x c = step prime y c ↔ x = y := (mul_right_inj hodd).trans (BitVec.xor_left_inj _)

/-- Bytes fit the hash, and different ones lead to different hashes. -/
theorem step_right_inj (hw : 8 ≤ w) (hodd : prime.toNat % 2 = 1) (x : BitVec w) {c d : BitVec 8} :
    step prime x c = step prime x d ↔ c = d := by
  have hbyte : c.setWidth w = d.setWidth w ↔ c = d := by
    constructor
    · intro h
      have hback := congrArg (BitVec.setWidth 8) h
      rwa [BitVec.setWidth_setWidth_of_le _ hw, BitVec.setWidth_setWidth_of_le _ hw, BitVec.setWidth_eq,
        BitVec.setWidth_eq] at hback
    · intro h
      rw [h]
  rw [step, step, mul_right_inj hodd, BitVec.xor_right_inj, hbyte]

theorem hash_basis_inj (hodd : prime.toNat % 2 = 1) {x y : BitVec w} (s : List (BitVec 8)) :
    hash prime x s = hash prime y s ↔ x = y := by
  induction s generalizing x y with
  | nil => exact Iff.rfl
  | cons c s ih => exact ih.trans (step_left_inj hodd c)

/-- **One byte** that differs makes a difference. -/
theorem hash_eq_iff_of_one_byte (hw : 8 ≤ w) (hodd : prime.toNat % 2 = 1) (s r : List (BitVec 8))
    {c d : BitVec 8} : hash prime basis (s ++ c :: r) = hash prime basis (s ++ d :: r) ↔ c = d := by
  rw [hash_append, hash_append]
  exact (hash_basis_inj hodd r).trans (step_right_inj hw hodd _)

end Fnv
