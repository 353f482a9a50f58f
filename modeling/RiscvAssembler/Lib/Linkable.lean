import Mathlib.Data.List.Forall2
import Mathlib.Data.List.Induction
import RiscvAssembler.Lib.Gabi

/-!
# Reading a relocatable file

What a linker takes from an ELF32 file: sections by their names, and the symbols of the symbol table with
theirs. Whatever cannot be read makes the whole reading fail.

* `sectionNamed`, `sectionTyped`: the first section with a name or a type.
* `readSymbols`: the symbols of a table, with their names.
-/

namespace Gabi

open Bytes

/-- A symbol, with its name. -/
structure Symbol where
  name : List Byte
  value : ℕ
  size : ℕ
  info : ℕ
  other : ℕ
  shndx : ℕ
  deriving DecidableEq, Repr

/-- The symbol of an entry, by its name. -/
def Sym.named (sym : Sym) (name : List Byte) : Symbol :=
  ⟨name, sym.value, sym.size, sym.info, sym.other, sym.shndx⟩

/-- The section headers, in order. -/
def sectionHeaders (f : List Byte) (h : Ehdr) : Option (List Shdr) :=
  (List.range h.shnum).mapM (sectionHeader f h)

/-- The first section with the name. -/
def sectionNamed (f : List Byte) (h : Ehdr) (name : List Byte) : Option Shdr :=
  (sectionHeaders f h).bind (List.find? fun sh => sectionName f h sh == some name)

/-- The first section of the type. -/
def sectionTyped (f : List Byte) (h : Ehdr) (type : ℕ) : Option Shdr :=
  (sectionHeaders f h).bind (List.find? fun sh => sh.type == type)

/-- Symbol `k` of a symbol table. -/
def readSymbol (f : List Byte) (h : Ehdr) (sh : Shdr) (k : ℕ) : Option Symbol :=
  (symbolAt f sh k).bind fun sym => (symbolName f h sh sym).map sym.named

/-- The symbols of a symbol table, in order; the first entry is none. -/
def readSymbols (f : List Byte) (h : Ehdr) (sh : Shdr) : Option (List Symbol) :=
  (List.range (sh.size / sh.entsize - 1)).mapM fun k => readSymbol f h sh (k + 1)

/-- As many computations as there are elements, each with an element for its value. -/
theorem mapM_range_eq {m : Type → Type} [Monad m] [LawfulMonad m] {α : Type} {g : ℕ → m α}
    {xs : List α} (h : ∀ i (hi : i < xs.length), g i = pure xs[i]) : (List.range xs.length).mapM g = pure xs := by
  induction xs using List.reverseRecOn with
  | nil => rfl
  | append_singleton xs x ih =>
      have hpre : (List.range xs.length).mapM g = pure xs := by
        refine ih fun i hi => ?_
        rw [h i (by simp; omega), List.getElem_append_left hi]
      have hlast : g xs.length = pure x := by
        rw [h xs.length (by simp)]
        simp
      rw [List.length_append, List.length_singleton, List.range_succ, List.mapM_append, hpre,
        List.mapM_cons, hlast]
      simp

/-- The elements are the values of the computations. -/
theorem of_mapM_range {α : Type} {g : ℕ → Option α} {n : ℕ} {xs : List α}
    (h : (List.range n).mapM g = some xs) :
    xs.length = n ∧ ∀ i (hi : i < xs.length), g i = some xs[i] := by
  induction n generalizing xs with
  | zero =>
      cases h
      exact ⟨rfl, by simp⟩
  | succ n ih =>
      simp only [List.range_succ, List.mapM_append, List.mapM_cons, List.mapM_nil, Option.bind_eq_bind,
        Option.pure_def, Option.bind_some, Option.bind_eq_some_iff] at h
      obtain ⟨pre, hpre, last, ⟨x, hx, hlast⟩, h⟩ := h
      cases hlast
      cases h
      obtain ⟨hlen, hget⟩ := ih hpre
      refine ⟨by simp [hlen], fun i hi => ?_⟩
      rcases Nat.lt_or_ge i pre.length with hlt | hge
      · rw [List.getElem_append_left hlt]
        exact hget i hlt
      · obtain rfl : i = n := by
          rw [List.length_append, List.length_singleton] at hi
          omega
        simp [hlen, hx]

/-! ## Files in which everything can be read -/

/-- As many bytes as are read are there. -/
theorem le_of_readFields {ns xs : List ℕ} {bs : List Byte} (h : readFields ns bs = some xs) :
    ns.sum ≤ bs.length := by
  induction ns generalizing bs xs with
  | nil => exact Nat.zero_le _
  | cons n ns ih =>
      simp only [readFields, readLE] at h
      split_ifs at h with hle
      obtain ⟨rest, hrest, -⟩ := Option.map_eq_some_iff.mp h
      have hrest' := ih hrest
      rw [List.length_drop] at hrest'
      rw [List.sum_cons]
      omega

/-- An ELF header has 52 bytes, and those decide. -/
theorem readEhdr_take {f : List Byte} {h : Ehdr} (hread : readEhdr f = some h) :
    52 ≤ f.length ∧ ehdrAt (f.take 52) = h := by
  have hlen : 52 ≤ f.length := by
    unfold readEhdr at hread
    split_ifs at hread
    split at hread
    · rename_i hfields
      have hle := le_of_readFields hfields
      rw [List.length_drop] at hle
      simp only [List.sum_cons, List.sum_nil] at hle
      omega
    · cases hread
  refine ⟨hlen, ?_⟩
  have htake : ∀ {k n : ℕ}, k + n ≤ 52 → uintAt (f.take 52) k n = uintAt f k n := by
    intro k n hle
    have hsame := @uintAt_take_drop f 0 52 k n hle
    rwa [List.drop_zero, Nat.zero_add] at hsame
  rw [← ehdrAt_of_readEhdr hlen hread]
  simp only [ehdrAt, Ehdr.mk.injEq]
  exact ⟨htake (by decide), htake (by decide), htake (by decide), htake (by decide),
    htake (by decide), htake (by decide), htake (by decide), htake (by decide), htake (by decide),
    htake (by decide), htake (by decide), htake (by decide), htake (by decide)⟩

/-- A section header in a part of a byte string. -/
theorem shdrAt_take_drop {bs : List Byte} {off len k : ℕ} (h : k + 40 ≤ len) :
    shdrAt ((bs.drop off).take len) k = shdrAt bs (off + k) := by
  have hfield : ∀ j, j + 4 ≤ 40 →
      uintAt ((bs.drop off).take len) (k + j) 4 = uintAt bs (off + k + j) 4 := by
    intro j hj
    rw [uintAt_take_drop (by omega), Nat.add_assoc]
  simp only [shdrAt, Shdr.mk.injEq]
  exact ⟨hfield 0 (by decide), hfield 4 (by decide), hfield 8 (by decide), hfield 12 (by decide),
    hfield 16 (by decide), hfield 20 (by decide), hfield 24 (by decide), hfield 28 (by decide),
    hfield 32 (by decide), hfield 36 (by decide)⟩

theorem ofLE_lt (bs : List Byte) : ofLE bs < 256 ^ bs.length := by
  induction bs with
  | nil => exact Nat.one_pos
  | cons b bs ih =>
      have hb := b.isLt
      rw [ofLE, List.length_cons, pow_succ]
      omega

/-- Numbers fit the widths that they are read with. -/
theorem lt_of_readFields {ns xs : List ℕ} {bs : List Byte} (h : readFields ns bs = some xs) :
    List.Forall₂ (fun n x => x < 256 ^ n) ns xs := by
  induction ns generalizing bs xs with
  | nil =>
      cases h
      exact .nil
  | cons n ns ih =>
      simp only [readFields, readLE] at h
      split_ifs at h with hle
      obtain ⟨rest, hrest, rfl⟩ := Option.map_eq_some_iff.mp h
      refine .cons ?_ (ih hrest)
      have hlt := ofLE_lt (bs.take n)
      rwa [List.length_take, Nat.min_eq_left hle] at hlt

/-- The header of the file and its section headers, of which each has a name, and the section header table
has entries of the size of the type. -/
structure WellFormed (f : List Byte) (h : Ehdr) (shs : List Shdr) : Prop where
  ehdr : readEhdr f = some h
  shentsize : h.shentsize = 40
  headers : sectionHeaders f h = some shs
  shstrndx : h.shstrndx < h.shnum
  names : ∀ sh ∈ shs, ∃ name, sectionName f h sh = some name

namespace WellFormed

variable {f : List Byte} {h : Ehdr} {shs : List Shdr}

theorem length_eq (hw : WellFormed f h shs) : shs.length = h.shnum := (of_mapM_range hw.headers).1

theorem header (hw : WellFormed f h shs) {i : ℕ} (hi : i < shs.length) :
    (slice f (h.shoff + i * 40) 40).bind readShdr = some shs[i] := by
  have hget := (of_mapM_range hw.headers).2 i hi
  rwa [sectionHeader, if_pos (hw.length_eq ▸ hi), hw.shentsize] at hget

/-- The file has all of its section headers. -/
theorem table_le (hw : WellFormed f h shs) : h.shoff + 40 * h.shnum ≤ f.length := by
  have hpos : 0 < h.shnum := Nat.zero_lt_of_lt hw.shstrndx
  have hlast := hw.header (i := h.shnum - 1) (by rw [hw.length_eq]; omega)
  obtain ⟨bs, hbs, -⟩ := Option.bind_eq_some_iff.mp hlast
  unfold slice at hbs
  split_ifs at hbs with hle
  omega

/-- The headers as they lie in the table. -/
theorem shdrAt_eq (hw : WellFormed f h shs) {i : ℕ} (hi : i < shs.length) :
    shdrAt ((f.drop h.shoff).take (40 * h.shnum)) (40 * i) = shs[i] := by
  have hle : 40 * i + 40 ≤ 40 * h.shnum := by
    rw [hw.length_eq] at hi
    omega
  rw [shdrAt_take_drop hle, Nat.mul_comm 40 i]
  exact shdrAt_of_readShdr (hw.header hi)

/-- `e_shnum` has two bytes. -/
theorem shnum_lt (hw : WellFormed f h shs) : h.shnum < 2 ^ 16 := by
  have hehdr := hw.ehdr
  unfold readEhdr at hehdr
  split_ifs at hehdr
  split at hehdr
  · rename_i hfields
    cases hehdr
    have hlt := lt_of_readFields hfields
    simp only [List.forall₂_cons] at hlt
    exact hlt.2.2.2.2.2.2.2.2.2.2.2.1
  · cases hehdr

/-- The names are in the section that `e_shstrndx` selects. -/
theorem strings (hw : WellFormed f h shs) : ∃ (hi : h.shstrndx < shs.length) (tab : List Byte),
    sectionBytes f shs[h.shstrndx] = some tab ∧ ∀ sh, sectionName f h sh = readCString tab sh.name := by
  have hi : h.shstrndx < shs.length := hw.length_eq ▸ hw.shstrndx
  have hheader : sectionHeader f h h.shstrndx = some shs[h.shstrndx] :=
    (of_mapM_range hw.headers).2 _ hi
  obtain ⟨name, hname⟩ := hw.names _ (List.getElem_mem hi)
  rw [sectionName, hheader, Option.bind_some] at hname
  obtain ⟨tab, htab, -⟩ := Option.bind_eq_some_iff.mp hname
  refine ⟨hi, tab, htab, fun sh => ?_⟩
  rw [sectionName, hheader, Option.bind_some, htab, Option.bind_some]

end WellFormed

end Gabi
