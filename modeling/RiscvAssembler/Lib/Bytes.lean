import Mathlib.Data.List.TakeWhile
import Mathlib.Tactic.Ring

/-!
# Byte strings: numbers, slices, seekable streams

* `leBytes n x` are the `n` low bytes of `x`, least significant first; `ofLE` puts bytes back
  together (`ofLE_leBytes`), `readLE` takes a number off the front of a byte string
  (`readLE_leBytes`). `ofBE` reads the other order (`ofBE_reverse`).
* `slice f off len` is the part of a file at an offset, if the file is long enough
  (`slice_append`); a table of entries of one size can be cut up again (`slice_flatMap`, `flatMap_inj`).
* `cString` is a byte string up to its first NUL, `readCString` the string at an offset of a table.
* `OStream` is an output stream with a position that can be moved: writing at the end appends
  (`write_atEnd`), writing after moving to the start overwrites (`write_seekBeg`).
* `IStream` is an input stream over a file, whose reads fail for good at the first short one.
-/

namespace Bytes

/-- A byte. -/
abbrev Byte := BitVec 8

/-! ## Numbers -/

/-- Byte `i` of a number. -/
def byteAt (x i : ℕ) : Byte := BitVec.ofNat 8 (x / 2 ^ (8 * i))

/-- The `n` low bytes of a number, least significant first. -/
def leBytes (n x : ℕ) : List Byte := (List.range n).map (byteAt x)

/-- The number with the given little-endian bytes. -/
def ofLE : List Byte → ℕ
  | [] => 0
  | b :: bs => b.toNat + 256 * ofLE bs

@[simp] theorem length_leBytes (n x : ℕ) : (leBytes n x).length = n := by simp [leBytes]

theorem ofLE_append (bs bs' : List Byte) :
    ofLE (bs ++ bs') = ofLE bs + 256 ^ bs.length * ofLE bs' := by
  induction bs with
  | nil => simp [ofLE]
  | cons b bs ih =>
      simp only [List.cons_append, ofLE, ih, List.length_cons, pow_succ]
      ring

theorem ofLE_leBytes (n x : ℕ) : ofLE (leBytes n x) = x % 256 ^ n := by
  induction n with
  | zero => simp [leBytes, ofLE, Nat.mod_one]
  | succ n ih =>
      have hsplit : leBytes (n + 1) x = leBytes n x ++ [byteAt x n] := by
        simp [leBytes, List.range_succ]
      have hpow : 2 ^ (8 * n) = 256 ^ n := by rw [pow_mul]; norm_num
      rw [hsplit, ofLE_append, ih, length_leBytes, Nat.mod_pow_succ]
      simp [ofLE, byteAt, hpow]

/-- `n` bytes hold every number below `256 ^ n`. -/
theorem ofLE_leBytes_of_lt {n x : ℕ} (h : x < 256 ^ n) : ofLE (leBytes n x) = x := by
  rw [ofLE_leBytes, Nat.mod_eq_of_lt h]

/-- Take a little-endian number of `n` bytes off the front of a byte string. -/
def readLE (n : ℕ) (bs : List Byte) : Option (ℕ × List Byte) :=
  if n ≤ bs.length then some (ofLE (bs.take n), bs.drop n) else none

/-- Reading a number back. -/
theorem readLE_leBytes {n x : ℕ} (h : x < 256 ^ n) (rest : List Byte) :
    readLE n (leBytes n x ++ rest) = some (x, rest) := by
  have hlen : n ≤ (leBytes n x ++ rest).length := by simp
  rw [readLE, if_pos hlen, List.take_left' (length_leBytes n x),
    List.drop_left' (length_leBytes n x), ofLE_leBytes_of_lt h]

/-- The number with the given big-endian bytes. -/
def ofBE (bs : List Byte) : ℕ := bs.foldl (fun x b => 256 * x + b.toNat) 0

/-- Bytes in the other order, read from the other end, are the same number. -/
theorem ofBE_reverse (bs : List Byte) : ofBE bs.reverse = ofLE bs := by
  unfold ofBE
  rw [List.foldl_reverse]
  induction bs with
  | nil => rfl
  | cons b bs ih =>
      rw [List.foldr_cons, ih, ofLE]
      exact Nat.add_comm _ _

/-! ## Slices and NUL-terminated strings -/

/-- The `len` bytes of a file at an offset, if it has them. -/
def slice (f : List Byte) (off len : ℕ) : Option (List Byte) :=
  if off + len ≤ f.length then some ((f.drop off).take len) else none

/-- The slice of a concatenation at one of its parts is that part. -/
theorem slice_append {a b c : List Byte} {off len : ℕ} (ho : a.length = off)
    (hl : b.length = len) : slice (a ++ (b ++ c)) off len = some b := by
  subst ho hl
  have hle : a.length + b.length ≤ (a ++ (b ++ c)).length := by simp
  rw [slice, if_pos hle, List.drop_left, List.take_left]

/-- The slice of parts laid end to end at one of them is that part. -/
theorem slice_flatten (parts : List (List Byte)) {i : ℕ} (hi : i < parts.length) :
    slice parts.flatten ((parts.take i).map List.length).sum parts[i].length = some parts[i] := by
  have hsplit : parts.flatten =
      (parts.take i).flatten ++ (parts[i] ++ (parts.drop (i + 1)).flatten) := by
    conv_lhs => rw [← List.take_append_drop i parts, List.drop_eq_getElem_cons hi]
    rw [List.flatten_append, List.flatten_cons]
  rw [hsplit]
  exact slice_append List.length_flatten rfl

/-- The slice at entry `i` of a table whose entries all take `w` bytes. -/
theorem slice_flatMap {α : Type*} {w : ℕ} (f : α → List Byte) (hf : ∀ x, (f x).length = w)
    (pre : List Byte) (table : List α) {i : ℕ} (hi : i < table.length) :
    slice (pre ++ table.flatMap f) (pre.length + i * w) w = some (f table[i]) := by
  have hsplit : table.flatMap f =
      (table.take i).flatMap f ++ (f table[i] ++ (table.drop (i + 1)).flatMap f) := by
    conv_lhs => rw [← List.take_append_drop i table, List.drop_eq_getElem_cons hi]
    rw [List.flatMap_append, List.flatMap_cons]
  rw [hsplit, ← List.append_assoc]
  refine slice_append ?_ (hf _)
  have hlen : ((table.take i).flatMap f).length = i * w := by
    rw [List.length_flatMap, List.map_congr_left fun x _ => hf x, List.map_const',
      List.sum_replicate_nat, List.length_take, Nat.min_eq_left hi.le]
  rw [List.length_append, hlen]

/-- Two tables with as many entries have the same bytes only if they are the same. -/
theorem flatMap_inj {α : Type*} {w : ℕ} {f : α → List Byte} (hf : ∀ x, (f x).length = w)
    (hinj : Function.Injective f) {table table' : List α} (hlen : table.length = table'.length)
    (h : table.flatMap f = table'.flatMap f) : table = table' := by
  apply List.ext_getElem hlen
  intro i hi hi'
  have hslice := slice_flatMap f hf [] table hi
  rw [h, slice_flatMap f hf [] table' hi'] at hslice
  exact hinj (Option.some.inj hslice).symm

/-- A byte string up to its first NUL. -/
def cString (bs : List Byte) : List Byte := bs.takeWhile (· != 0)

theorem zero_notMem_cString (bs : List Byte) : (0 : Byte) ∉ cString bs := by
  intro h
  have := List.mem_takeWhile_imp h
  simp at this

/-- A string without a NUL is all of itself. -/
theorem cString_eq_self {bs : List Byte} (h : (0 : Byte) ∉ bs) : cString bs = bs := by
  apply List.takeWhile_eq_self_iff.mpr
  intro b hb
  have : b ≠ 0 := fun h0 => h (h0 ▸ hb)
  simpa using this

theorem cString_append_zero {bs : List Byte} (h : (0 : Byte) ∉ bs) (rest : List Byte) :
    cString (bs ++ 0 :: rest) = bs := by
  induction bs with
  | nil => simp [cString]
  | cons b bs ih =>
      rw [List.mem_cons, not_or] at h
      have hb : b ≠ 0 := fun h0 => h.1 h0.symm
      rw [cString, List.cons_append, List.takeWhile_cons, if_pos (by simpa using hb)]
      exact congrArg (b :: ·) (ih h.2)

/-- The NUL-terminated string at an offset of a table, if the table has its terminator. -/
def readCString (tab : List Byte) (off : ℕ) : Option (List Byte) :=
  if (0 : Byte) ∈ tab.drop off then some (cString (tab.drop off)) else none

/-- The string that starts at a given place of a table reads back. -/
theorem readCString_append {a s : List Byte} (h : (0 : Byte) ∉ s) (rest : List Byte) {off : ℕ}
    (ho : a.length = off) : readCString (a ++ (s ++ 0 :: rest)) off = some s := by
  subst ho
  rw [readCString, List.drop_left, if_pos (by simp), cString_append_zero h]

/-- A string that reads back starts inside the table. -/
theorem lt_length_of_readCString {tab s : List Byte} {off : ℕ} (h : readCString tab off = some s) :
    off < tab.length := by
  unfold readCString at h
  split_ifs at h with hmem
  by_contra hle
  rw [List.drop_eq_nil_of_le (by omega)] at hmem
  exact absurd hmem List.not_mem_nil

/-! ## Seekable output streams -/

/-- What has been written, and where the next byte goes. -/
structure OStream where
  /-- The bytes of the stream. -/
  bytes : List Byte
  /-- The put position. -/
  pos : ℕ

namespace OStream

/-- A fresh stream. -/
def empty : OStream := ⟨[], 0⟩

/-- Write at the put position, over what is there and past the end. -/
def write (os : OStream) (bs : List Byte) : OStream :=
  ⟨os.bytes.take os.pos ++ bs ++ os.bytes.drop (os.pos + bs.length), os.pos + bs.length⟩

/-- The put position. -/
def tellp (os : OStream) : ℕ := os.pos

/-- Move the put position to the start. -/
def seekBeg (os : OStream) : OStream := { os with pos := 0 }

/-- Move the put position to the end. -/
def seekEnd (os : OStream) : OStream := { os with pos := os.bytes.length }

/-- A stream whose put position is its end. -/
def atEnd (bs : List Byte) : OStream := ⟨bs, bs.length⟩

@[simp] theorem tellp_atEnd (bs : List Byte) : (atEnd bs).tellp = bs.length := rfl

@[simp] theorem seekEnd_atEnd (bs : List Byte) : (atEnd bs).seekEnd = atEnd bs := rfl

@[simp] theorem empty_eq : empty = atEnd [] := rfl

/-- Writing at the end appends. -/
@[simp] theorem write_atEnd (bs bs' : List Byte) : (atEnd bs).write bs' = atEnd (bs ++ bs') := by
  simp [write, atEnd]

/-- Writing at the start overwrites as many bytes as are written. -/
theorem write_seekBeg (bs bs' rest : List Byte) (h : bs.length = bs'.length) :
    ((atEnd (bs ++ rest)).seekBeg.write bs').bytes = bs' ++ rest := by
  simp [write, atEnd, seekBeg, ← h]

end OStream

/-! ## Seekable input streams -/

/-- The bytes of a file, where the next one is read, and whether a read has come out short. -/
structure IStream where
  /-- The bytes of the file. -/
  bytes : List Byte
  /-- The get position. -/
  pos : ℕ
  /-- The fail bit. -/
  fail : Bool

namespace IStream

/-- A file that has just been opened. -/
def ofBytes (bs : List Byte) : IStream := ⟨bs, 0, false⟩

/-- Move the get position, unless a read has failed. -/
def seekg (s : IStream) (off : ℕ) : IStream := if s.fail then s else { s with pos := off }

/-- Read up to `n` bytes; a short read sets the fail bit, and a stream that has failed yields none. -/
def read (s : IStream) (n : ℕ) : IStream × List Byte :=
  if s.fail then (s, [])
  else
    let got := (s.bytes.drop s.pos).take n
    ({ s with pos := s.pos + got.length, fail := decide (got.length < n) }, got)

/-- A read of bytes that are there. -/
theorem read_of_slice {s : IStream} {n : ℕ} {bs : List Byte} (hfail : s.fail = false)
    (h : slice s.bytes s.pos n = some bs) : s.read n = ({ s with pos := s.pos + n }, bs) := by
  unfold slice at h
  split_ifs at h with hle
  cases h
  have hlen : ((s.bytes.drop s.pos).take n).length = n := by
    rw [List.length_take, List.length_drop]
    omega
  simp only [read, hfail, Bool.false_eq_true, if_false, hlen, lt_irrefl, decide_false]

end IStream

end Bytes
