import Mathlib.Tactic.Positivity
import Mathlib.Tactic.Ring

/-!
# Words packed from bit fields

A machine word is often assembled by shifting fields to their offsets and or-ing them together,
most significant field first, with no gap between one field and the next. Read as a natural number
such a word is a Horner sum.

* `toNat_setWidth_shl` starts the sum with the topmost field, `toNat_or_field` adds the field that
  comes directly below the ones packed so far, `toNat_or_last` the field at offset zero. Chained,
  they give the value of a whole word in one term.
* `toNat_extract` reads a field back as a quotient and a remainder, so that a statement about
  fields of a packed word is linear arithmetic once both are rewritten.
* `div_eq_add_field` and `toNat_div_mod_top` put the fields of a word back together.
* `toInt_eq_iff` turns the signed value of a field into a congruence, and
  `toNat_append` computes the value of scattered fields put back together.
-/

namespace BitFields

variable {w n : ℕ}

/-- Or-ing a multiple of `2 ^ k` with a number below `2 ^ k` adds them. -/
theorem toNat_or_of_dvd_of_lt (k : ℕ) {a b : BitVec w} (ha : 2 ^ k ∣ a.toNat)
    (hb : b.toNat < 2 ^ k) : (a ||| b).toNat = a.toNat + b.toNat := by
  obtain ⟨m, hm⟩ := ha
  rw [BitVec.toNat_or, hm, ← Nat.two_pow_add_eq_or_of_lt hb]

/-- A field shifted to offset `k` of a word that has room for it. -/
theorem toNat_setWidth_shl (x : BitVec n) (k : ℕ) (h : n + k ≤ w) :
    (x.setWidth w <<< k).toNat = 2 ^ k * x.toNat := by
  have hx : x.toNat < 2 ^ n := x.isLt
  have hle : 2 ^ k * 2 ^ n ≤ 2 ^ w := by
    rw [← Nat.pow_add, Nat.add_comm]
    exact Nat.pow_le_pow_right (by decide) h
  have hlt : 2 ^ k * x.toNat < 2 ^ w :=
    Nat.lt_of_lt_of_le (Nat.mul_lt_mul_of_pos_left hx (Nat.two_pow_pos k)) hle
  have hn : 2 ^ n ≤ 2 ^ w := Nat.pow_le_pow_right (by decide) (by omega)
  rw [BitVec.toNat_shiftLeft, BitVec.toNat_setWidth, Nat.mod_eq_of_lt (a := x.toNat) (by omega),
    Nat.shiftLeft_eq, Nat.mul_comm, Nat.mod_eq_of_lt hlt]

/-- The next field below the ones already packed. -/
theorem toNat_or_field {a : BitVec w} {A : ℕ} (k : ℕ) (ha : a.toNat = 2 ^ (k + n) * A)
    (x : BitVec n) (h : n + k ≤ w) :
    (a ||| x.setWidth w <<< k).toNat = 2 ^ k * (2 ^ n * A + x.toNat) := by
  have hx : 2 ^ k * x.toNat < 2 ^ (k + n) := by
    rw [Nat.pow_add]
    exact Nat.mul_lt_mul_of_pos_left x.isLt (Nat.two_pow_pos k)
  rw [toNat_or_of_dvd_of_lt (k + n) ⟨A, ha⟩ (by rwa [toNat_setWidth_shl x k h]), ha,
    toNat_setWidth_shl x k h]
  ring

/-- The last field, at offset zero. -/
theorem toNat_or_last {a : BitVec w} {A : ℕ} (ha : a.toNat = 2 ^ n * A) (x : BitVec n)
    (h : n ≤ w) : (a ||| x.setWidth w).toNat = 2 ^ n * A + x.toNat := by
  simpa using toNat_or_field 0 (by simpa using ha) x (by simpa using h)

/-- A field of a word is a quotient and a remainder of its value. -/
theorem toNat_extract (x : BitVec w) (lo n : ℕ) :
    (x.extractLsb' lo n).toNat = x.toNat / 2 ^ lo % 2 ^ n := by
  rw [BitVec.extractLsb'_toNat, Nat.shiftRight_eq_div_pow]

/-- Two numbers that agree from bit `k + n` up and in the field of width `n` at `k` agree from bit `k`
up. Applied field by field, from the top of a word, it shows that the fields determine the word. -/
theorem div_eq_of_field {x y k : ℕ} (n : ℕ) (hhi : x / 2 ^ (k + n) = y / 2 ^ (k + n))
    (hfield : x / 2 ^ k % 2 ^ n = y / 2 ^ k % 2 ^ n) : x / 2 ^ k = y / 2 ^ k := by
  rw [Nat.pow_add, ← Nat.div_div_eq_div_mul, ← Nat.div_div_eq_div_mul] at hhi
  rw [← Nat.div_add_mod (x / 2 ^ k) (2 ^ n), hhi, hfield, Nat.div_add_mod]

/-- A field of a number, below what is above it. Applied field by field, from the top of a word, it puts
the fields together again. -/
theorem div_eq_add_field (x k n : ℕ) :
    2 ^ n * (x / 2 ^ (k + n)) + x / 2 ^ k % 2 ^ n = x / 2 ^ k := by
  rw [Nat.pow_add, ← Nat.div_div_eq_div_mul]
  exact Nat.div_add_mod _ _

/-- The topmost field of a word is all that is above the other fields. -/
theorem toNat_div_mod_top {k : ℕ} (x : BitVec w) (h : k + n = w) :
    x.toNat / 2 ^ k % 2 ^ n = x.toNat / 2 ^ k := by
  have hx : x.toNat < 2 ^ n * 2 ^ k := by
    rw [← Nat.pow_add, Nat.add_comm, h]
    exact x.isLt
  exact Nat.mod_eq_of_lt ((Nat.div_lt_iff_lt_mul (Nat.two_pow_pos k)).mpr hx)

/-- The value of two fields put next to each other. -/
theorem toNat_append {m : ℕ} (x : BitVec m) (y : BitVec n) :
    (x ++ y).toNat = 2 ^ n * x.toNat + y.toNat := by
  rw [BitVec.toNat_append, Nat.shiftLeft_eq, Nat.mul_comm, Nat.two_pow_add_eq_or_of_lt y.isLt]

/-- The signed value of a bit vector is the number of its range that is congruent to it. -/
theorem toInt_eq_iff {x : BitVec n} {d : ℤ} (hn : 0 < n) (hlo : -2 ^ (n - 1) ≤ d)
    (hhi : d < 2 ^ (n - 1)) : x.toInt = d ↔ (2 ^ n : ℤ) ∣ x.toNat - d := by
  obtain ⟨m, rfl⟩ : ∃ m, n = m + 1 := ⟨n - 1, by omega⟩
  have hx := x.isLt
  have hpow : (2 : ℤ) ^ (m + 1) = 2 * 2 ^ m := by ring
  have hnat : ((2 ^ (m + 1) : ℕ) : ℤ) = 2 * 2 ^ m := by push_cast; ring
  simp only [Nat.add_sub_cancel] at hlo hhi
  rw [BitVec.toInt_eq_toNat_cond, hpow]
  constructor
  · intro h
    split_ifs at h with hc
    · exact ⟨0, by omega⟩
    · exact ⟨1, by omega⟩
  · rintro ⟨c, hc⟩
    have hx' : (x.toNat : ℤ) < 2 * 2 ^ m := by rw [← hnat]; exact_mod_cast hx
    have h0 : (0 : ℤ) ≤ x.toNat := Int.natCast_nonneg _
    have hpos : (0 : ℤ) < 2 ^ m := by positivity
    have hc0 : -1 < c := by
      by_contra hneg
      have : 2 * 2 ^ m * c ≤ 2 * 2 ^ m * (-1) :=
        Int.mul_le_mul_of_nonneg_left (by omega) (by omega)
      omega
    have hc2 : c < 2 := by
      by_contra hge
      have : 2 * 2 ^ m * 2 ≤ 2 * 2 ^ m * c :=
        Int.mul_le_mul_of_nonneg_left (by omega) (by omega)
      omega
    have hcases : c = 0 ∨ c = 1 := by omega
    rcases hcases with rfl | rfl
    · rw [if_pos (by omega)]; omega
    · rw [if_neg (by omega)]; omega

end BitFields
