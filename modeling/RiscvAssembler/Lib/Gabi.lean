import RiscvAssembler.Lib.Bytes

/-!
# Reading ELF32 little-endian files

The reader's side of the generic ABI, on a byte string, knowing nothing of who wrote it. Fields come
out as natural numbers.

* `leFields`, `readFields`: records of little-endian fields of given widths (`readFields_leFields`).
* `readEhdr`, `readShdr`, `sectionHeader`, `sectionBytes`, `sectionName`: the ELF header, the section
  headers, and what a section header selects.
* `ehdrAt`, `shdrAt`: the same records as they lie in memory, read at their offsets whatever is there.
* `symbolAt`, `symbolName`: the entries of a symbol table, and their names.
* `Region`, `Partition`: byte ranges that are pairwise disjoint and cover a file. Parts laid end to
  end are one (`partition_regionsFrom`).
-/

namespace Gabi

open Bytes

/-! ## Records -/

/-- The fields of a record, one after the other; a field is a width in bytes and a value. -/
def leFields (fields : List (ℕ × ℕ)) : List Byte := fields.flatMap fun f => leBytes f.1 f.2

/-- Take little-endian numbers of the given widths off the front of a byte string. -/
def readFields : List ℕ → List Byte → Option (List ℕ)
  | [], _ => some []
  | n :: ns, bs =>
    match readLE n bs with
    | some (x, rest) => (readFields ns rest).map (x :: ·)
    | none => none

/-- A record whose values fit their fields reads back. -/
theorem readFields_leFields (fields : List (ℕ × ℕ)) (h : ∀ f ∈ fields, f.2 < 256 ^ f.1)
    (rest : List Byte) :
    readFields (fields.map Prod.fst) (leFields fields ++ rest) = some (fields.map Prod.snd) := by
  induction fields with
  | nil => rfl
  | cons f fields ih =>
      have hf := h f List.mem_cons_self
      have hrest := ih fun g hg => h g (List.mem_cons_of_mem _ hg)
      have hsplit : leFields (f :: fields) ++ rest = leBytes f.1 f.2 ++ (leFields fields ++ rest) := by
        simp [leFields]
      rw [hsplit, List.map_cons, readFields, readLE_leBytes hf]
      simp only [hrest, Option.map_some, List.map_cons]

/-! ## Headers -/

/-- The ELF header after `e_ident`. -/
structure Ehdr where
  type : ℕ
  machine : ℕ
  version : ℕ
  entry : ℕ
  phoff : ℕ
  shoff : ℕ
  flags : ℕ
  ehsize : ℕ
  phentsize : ℕ
  phnum : ℕ
  shentsize : ℕ
  shnum : ℕ
  shstrndx : ℕ
  deriving DecidableEq, Repr

/-- The first bytes of an `e_ident`: the magic number, 32-bit objects, little-endian data, version 1.
-/
def identPrefix : List Byte := [0x7f, 0x45, 0x4c, 0x46, 1, 1, 1]

/-- The ELF header of a file, if it is an ELF32 little-endian one. -/
def readEhdr (f : List Byte) : Option Ehdr :=
  if f.take 7 = identPrefix then
    match readFields [2, 2, 4, 4, 4, 4, 4, 2, 2, 2, 2, 2, 2] (f.drop 16) with
    | some [type, machine, version, entry, phoff, shoff, flags, ehsize, phentsize, phnum, shentsize,
        shnum, shstrndx] =>
      some ⟨type, machine, version, entry, phoff, shoff, flags, ehsize, phentsize, phnum, shentsize,
        shnum, shstrndx⟩
    | _ => none
  else none

/-- A section header. -/
structure Shdr where
  name : ℕ
  type : ℕ
  flags : ℕ
  addr : ℕ
  offset : ℕ
  size : ℕ
  link : ℕ
  info : ℕ
  addralign : ℕ
  entsize : ℕ
  deriving DecidableEq, Repr

/-- The section header at the front of a byte string. -/
def readShdr (bs : List Byte) : Option Shdr :=
  match readFields [4, 4, 4, 4, 4, 4, 4, 4, 4, 4] bs with
  | some [name, type, flags, addr, offset, size, link, info, addralign, entsize] =>
    some ⟨name, type, flags, addr, offset, size, link, info, addralign, entsize⟩
  | _ => none

/-- Entry `i` of the section header table. -/
def sectionHeader (f : List Byte) (h : Ehdr) (i : ℕ) : Option Shdr :=
  if i < h.shnum then (slice f (h.shoff + i * h.shentsize) h.shentsize).bind readShdr else none

/-- The bytes that a section header selects. -/
def sectionBytes (f : List Byte) (sh : Shdr) : Option (List Byte) := slice f sh.offset sh.size

/-- The name of a section, from the table that `e_shstrndx` selects. -/
def sectionName (f : List Byte) (h : Ehdr) (sh : Shdr) : Option (List Byte) :=
  (sectionHeader f h h.shstrndx).bind fun str =>
    (sectionBytes f str).bind fun tab => readCString tab sh.name

/-! ## Records as they lie in memory -/

/-- The little-endian number in `n` bytes at an offset. -/
def uintAt (bs : List Byte) (off n : ℕ) : ℕ := ofLE ((bs.drop off).take n)

/-- The numbers of the given widths, one after the other from an offset on. -/
def uintsAt (bs : List Byte) : ℕ → List ℕ → List ℕ
  | _, [] => []
  | off, n :: ns => uintAt bs off n :: uintsAt bs (off + n) ns

/-- Fields that are there are read at their offsets. -/
theorem readFields_drop {bs : List Byte} {ns : List ℕ} {off : ℕ} (h : off + ns.sum ≤ bs.length) :
    readFields ns (bs.drop off) = some (uintsAt bs off ns) := by
  induction ns generalizing off with
  | nil => rfl
  | cons n ns ih =>
      rw [List.sum_cons] at h
      have hle : n ≤ (bs.drop off).length := by
        rw [List.length_drop]
        omega
      rw [readFields, readLE, if_pos hle]
      simp only [List.drop_drop, ih (by omega : off + n + ns.sum ≤ bs.length)]
      rfl

/-- The ELF header in 52 bytes, after its `e_ident`. -/
def ehdrAt (bs : List Byte) : Ehdr where
  type := uintAt bs 16 2
  machine := uintAt bs 18 2
  version := uintAt bs 20 4
  entry := uintAt bs 24 4
  phoff := uintAt bs 28 4
  shoff := uintAt bs 32 4
  flags := uintAt bs 36 4
  ehsize := uintAt bs 40 2
  phentsize := uintAt bs 42 2
  phnum := uintAt bs 44 2
  shentsize := uintAt bs 46 2
  shnum := uintAt bs 48 2
  shstrndx := uintAt bs 50 2

/-- The section header at an offset of a table. -/
def shdrAt (bs : List Byte) (off : ℕ) : Shdr where
  name := uintAt bs off 4
  type := uintAt bs (off + 4) 4
  flags := uintAt bs (off + 8) 4
  addr := uintAt bs (off + 12) 4
  offset := uintAt bs (off + 16) 4
  size := uintAt bs (off + 20) 4
  link := uintAt bs (off + 24) 4
  info := uintAt bs (off + 28) 4
  addralign := uintAt bs (off + 32) 4
  entsize := uintAt bs (off + 36) 4

/-- The two ways to read an ELF header agree. -/
theorem ehdrAt_of_readEhdr {bs : List Byte} {h : Ehdr} (hlen : 52 ≤ bs.length)
    (hread : readEhdr bs = some h) : ehdrAt bs = h := by
  have hfields : readFields [2, 2, 4, 4, 4, 4, 4, 2, 2, 2, 2, 2, 2] (bs.drop 16) =
      some (uintsAt bs 16 [2, 2, 4, 4, 4, 4, 4, 2, 2, 2, 2, 2, 2]) := readFields_drop hlen
  unfold readEhdr at hread
  split_ifs at hread
  rw [hfields] at hread
  exact Option.some.inj hread

/-- A number in a part of a byte string. -/
theorem uintAt_take_drop {bs : List Byte} {off len k n : ℕ} (h : k + n ≤ len) :
    uintAt ((bs.drop off).take len) k n = uintAt bs (off + k) n := by
  rw [uintAt, uintAt, List.drop_take, List.drop_drop, List.take_take, Nat.min_eq_left (by omega)]

/-- The two ways to read a section header agree. -/
theorem shdrAt_of_readShdr {bs : List Byte} {off : ℕ} {sh : Shdr}
    (hread : (slice bs off 40).bind readShdr = some sh) : shdrAt bs off = sh := by
  unfold slice at hread
  split_ifs at hread with hle
  · have hlen : 0 + [4, 4, 4, 4, 4, 4, 4, 4, 4, 4].sum ≤ ((bs.drop off).take 40).length := by
      rw [List.length_take, List.length_drop]
      simp only [List.sum_cons, List.sum_nil]
      omega
    have hfields := readFields_drop hlen
    rw [List.drop_zero] at hfields
    rw [Option.bind_some, readShdr, hfields] at hread
    have hsh := Option.some.inj hread
    simp only [uintAt_take_drop, Nat.reduceAdd, Nat.reduceLeDiff, add_zero] at hsh
    exact hsh
  · cases hread

/-- A symbol table entry. -/
structure Sym where
  name : ℕ
  value : ℕ
  size : ℕ
  info : ℕ
  other : ℕ
  shndx : ℕ
  deriving DecidableEq, Repr

/-- The symbol table entry at the front of a byte string. -/
def readSym (bs : List Byte) : Option Sym :=
  match readFields [4, 4, 4, 1, 1, 2] bs with
  | some [name, value, size, info, other, shndx] => some ⟨name, value, size, info, other, shndx⟩
  | _ => none

/-- Entry `k` of the symbol table that a section header selects. -/
def symbolAt (f : List Byte) (sh : Shdr) (k : ℕ) : Option Sym :=
  (sectionBytes f sh).bind fun tab => (slice tab (k * sh.entsize) sh.entsize).bind readSym

/-- The name of a symbol, from the string table that the symbol table's `sh_link` selects. -/
def symbolName (f : List Byte) (h : Ehdr) (sh : Shdr) (sym : Sym) : Option (List Byte) :=
  (sectionHeader f h sh.link).bind fun str =>
    (sectionBytes f str).bind fun tab => readCString tab sym.name

/-! ## Regions -/

/-- A range of bytes, by its start and its length. -/
structure Region where
  start : ℕ
  length : ℕ
  deriving DecidableEq, Repr

namespace Region

/-- The byte lies in the region. -/
def Contains (r : Region) (k : ℕ) : Prop := r.start ≤ k ∧ k < r.start + r.length

/-- No byte lies in both regions. -/
def Apart (r r' : Region) : Prop := ∀ k, ¬ (r.Contains k ∧ r'.Contains k)

end Region

/-- The regions are pairwise disjoint and cover the bytes from `a` to `b`, and no others. -/
structure Partition (regions : List Region) (a b : ℕ) : Prop where
  apart : regions.Pairwise Region.Apart
  covers : ∀ k, (∃ r ∈ regions, r.Contains k) ↔ a ≤ k ∧ k < b

/-- Regions of the given lengths, laid end to end. -/
def regionsFrom : ℕ → List ℕ → List Region
  | _, [] => []
  | start, n :: ns => ⟨start, n⟩ :: regionsFrom (start + n) ns

/-- **Parts laid end to end** are disjoint and cover what they span. -/
theorem partition_regionsFrom (start : ℕ) (lengths : List ℕ) :
    Partition (regionsFrom start lengths) start (start + lengths.sum) := by
  induction lengths generalizing start with
  | nil => exact ⟨List.Pairwise.nil, by simp [regionsFrom]⟩
  | cons n ns ih =>
      obtain ⟨hapart, hcovers⟩ := ih (start + n)
      constructor
      · refine List.pairwise_cons.mpr ⟨?_, hapart⟩
        intro r hr k hk
        have hge := ((hcovers k).mp ⟨r, hr, hk.2⟩).1
        have hlt := hk.1.2
        simp only at hlt
        omega
      · intro k
        simp only [regionsFrom, List.mem_cons, exists_eq_or_imp, List.sum_cons]
        rw [hcovers, Region.Contains]
        simp only
        omega

end Gabi
