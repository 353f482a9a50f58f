import Mathlib.Data.List.Basic
import RiscvAssembler.Elf

/-!
# Section names and section numbers

The constructor registers each section in one way: its name goes into the section name table, the name
is entered in `section_to_idx` with the number of headers so far, and its header is pushed. `Registry`
is what these steps work on, for any number of sections with any names; `registry_init` says that the
constructor's own sections are registered like this.

* `registered_foldl`: the table, the map and the headers after any sequence of registrations.
* `looksUp_iff`: `get_section_idx` counts the names that come before a name in the map, and this is the
  index of its header only by chance.
-/

namespace RiscvAssembler

open Bytes StringTable

/-! ## Registration -/

/-- What the `init_*` functions fill in for each section. -/
structure Registry where
  /-- The bytes of the section name table. -/
  shstrtab : List Byte
  sectionToIdx : StrMap Word
  /-- `sh_name` of every entry of `section_headers`. -/
  shNames : List Word

namespace Registry

/-- Source: `elf.cc`, `ELF32::store_section_name`. -/
def storeSectionName (r : Registry) (name : Str) : Registry × ℕ :=
  let (shstrtab, offset) := StringTable.addString ⟨r.shstrtab, {}⟩ name
  ({ r with shstrtab := shstrtab.data }, offset)

/-- `section_to_idx[name] = section_headers.size(); section_headers.push_back(sh)`. -/
def registerHeader (r : Registry) (name : Str) (shName : Word) : Registry :=
  { r with
    sectionToIdx := r.sectionToIdx.insert name (BitVec.ofNat 32 r.shNames.length)
    shNames := r.shNames ++ [shName] }

/-- Source: `elf.cc`, `ELF32::get_section_idx`. -/
def getSectionIdx (r : Registry) (name : Str) : BitVec 64 :=
  if name ∈ r.sectionToIdx then
    BitVec.ofNat 64 (r.sectionToIdx.keys.filter (· < name)).length
  else BitVec.allOnes 64

/-- The null header, and an empty table.
Source: `elf.cc`, `ELF32::init_section_headers`. -/
def start : Registry := ⟨initTable, ∅, [0]⟩

/-- What the header at an index has for a name. -/
def headerName (r : Registry) (i : ℕ) : Option Str :=
  r.shNames[i]?.bind fun shName => readCString r.shstrtab shName.toNat

end Registry

/-- A call of an `init_*` function, for a section of any name. -/
inductive InitCall
  | section_ (name : Str)
  | strtables (shstrtab strtab : Str)
  deriving DecidableEq

namespace InitCall

/-- `strtables` enters each of its names next to the header of the other table.
Source: `elf.cc`, `ELF32::init_symtab`, `ELF32::init_text_section` and `ELF32::init_data_section`;
`ELF32::init_strtables`. -/
def apply (r : Registry) : InitCall → Registry
  | .section_ name =>
    let (r, shName) := r.storeSectionName name
    r.registerHeader name (BitVec.ofNat 32 shName)
  | .strtables shstrtab strtab =>
    let (r, shstrtabName) := r.storeSectionName shstrtab
    let (r, strtabName) := r.storeSectionName strtab
    (r.registerHeader shstrtab (BitVec.ofNat 32 strtabName)).registerHeader strtab
      (BitVec.ofNat 32 shstrtabName)

/-- The names that a call registers, in order. -/
def names : InitCall → List Str
  | .section_ name => [name]
  | .strtables shstrtab strtab => [shstrtab, strtab]

/-- The names of the headers that a call pushes, in order. -/
def headers : InitCall → List Str
  | .section_ name => [name]
  | .strtables shstrtab strtab => [strtab, shstrtab]

end InitCall

/-- The names that a sequence of calls registers. -/
def namesOf (calls : List InitCall) : List Str := calls.flatMap InitCall.names

/-- The names of the headers that a sequence of calls pushes. -/
def headersOf (calls : List InitCall) : List Str := calls.flatMap InitCall.headers

theorem namesOf_concat (calls : List InitCall) (c : InitCall) :
    namesOf (calls ++ [c]) = namesOf calls ++ c.names := by
  simp [namesOf]

theorem headersOf_concat (calls : List InitCall) (c : InitCall) :
    headersOf (calls ++ [c]) = headersOf calls ++ c.headers := by
  simp [headersOf]

/-- The registry after a sequence of calls. -/
def registered (calls : List InitCall) : Registry := calls.foldl InitCall.apply Registry.start

/-- What an object has registered. -/
def ELF32.registry (e : ELF32) : Registry :=
  ⟨e.shstrtab.data, e.sectionToIdx, e.sectionHeaders.map fun sh => (e.headerAt sh).shName⟩

/-- The calls of the constructor. -/
def initCalls : List InitCall :=
  [.strtables (str ".shstrtab") (str ".strtab"), .section_ (str ".symtab"), .section_ (str ".text"),
    .section_ (str ".data")]

/-- **The constructor registers its sections by these calls.** -/
theorem registry_init : ELF32.init.registry = registered initCalls := rfl

theorem getSectionIdx_registry (e : ELF32) (name : Str) :
    e.registry.getSectionIdx name = e.getSectionIdx name := rfl

/-! ## What has been registered -/

/-- Where a name is in the table that holds the given names. -/
def nameOffset (stored : List Str) (name : Str) : ℕ :=
  (body (stored.take (stored.idxOf name))).length + 1

theorem nameOffset_append {stored : List Str} {name : Str} (h : name ∈ stored) (more : List Str) :
    nameOffset (stored ++ more) name = nameOffset stored name := by
  rw [nameOffset, nameOffset, List.idxOf_append_of_mem h,
    List.take_append_of_le_length (List.idxOf_lt_length_of_mem h).le]

theorem nameOffset_concat {stored : List Str} {name : Str} (h : name ∉ stored) :
    nameOffset (stored ++ [name]) name = (body stored).length + 1 := by
  rw [nameOffset, List.idxOf_append_of_notMem h, List.idxOf_cons_self,
    Nat.add_zero stored.length, List.take_left]

/-- The registry has a table of the names `stored`, the keys `keys` in the order of their indices, and
behind the null header those that are called `headers`. -/
structure Registered (r : Registry) (stored keys headers : List Str) : Prop where
  shstrtab : r.shstrtab = tableBytes stored
  shNames : r.shNames = 0 :: headers.map fun name => BitVec.ofNat 32 (nameOffset stored name)
  length : headers.length = keys.length
  stored : ∀ name ∈ headers, name ∈ stored
  lookup : ∀ name ∈ keys,
    r.sectionToIdx.lookup name = some (BitVec.ofNat 32 (keys.idxOf name + 1))
  keys : r.sectionToIdx.keys.Perm keys

namespace Registered

variable {r : Registry} {stored keys headers : List Str}

theorem start : Registered Registry.start [] [] [] := by
  constructor <;> simp [Registry.start, initTable, tableBytes, body]

/-- A new name in the table. -/
theorem storeSectionName (h : Registered r stored keys headers) {name : Str} (hname : name ∉ stored) :
    Registered (r.storeSectionName name).1 (stored ++ [name]) keys headers ∧
      (r.storeSectionName name).2 = nameOffset (stored ++ [name]) name := by
  obtain ⟨hdata, hoffset⟩ := addString_eq (t := ⟨r.shstrtab, {}⟩) h.shstrtab name
  refine ⟨⟨hdata, ?_, h.length, ?_, h.lookup, h.keys⟩, ?_⟩
  · rw [Registry.storeSectionName, h.shNames]
    refine congrArg (0 :: ·) (List.map_congr_left fun g hg => ?_)
    rw [nameOffset_append (h.stored g hg)]
  · exact fun g hg => List.mem_append_left _ (h.stored g hg)
  · rw [nameOffset_concat hname]
    exact hoffset

/-- A new key, and a header. -/
theorem registerHeader (h : Registered r stored keys headers) {key header : Str} (hkey : key ∉ keys)
    (hheader : header ∈ stored) :
    Registered (r.registerHeader key (BitVec.ofNat 32 (nameOffset stored header))) stored
      (keys ++ [key]) (headers ++ [header]) := by
  have hcount : r.shNames.length = keys.length + 1 := by
    rw [h.shNames, List.length_cons, List.length_map, h.length]
  refine ⟨h.shstrtab, ?_, ?_, ?_, ?_, ?_⟩
  · simp [Registry.registerHeader, h.shNames]
  · simp [h.length]
  · intro g hg
    rcases List.mem_append.mp hg with hmem | hmem
    · exact h.stored g hmem
    · exact List.mem_singleton.mp hmem ▸ hheader
  · intro name hname
    rw [Registry.registerHeader]
    by_cases heq : name = key
    · subst heq
      rw [AList.lookup_insert, hcount, List.idxOf_append_of_notMem hkey, List.idxOf_cons_self,
        Nat.add_zero]
    · have hold : name ∈ keys := by simpa [heq] using hname
      rw [AList.lookup_insert_ne heq, List.idxOf_append_of_mem hold]
      exact h.lookup name hold
  · have hnew : key ∉ r.sectionToIdx := fun hmem => hkey (h.keys.mem_iff.mp hmem)
    rw [Registry.registerHeader, AList.insert_of_notMem hnew]
    exact ((List.Perm.cons key h.keys).trans (List.perm_append_singleton key keys).symm)

/-- A call registers its names, next to the headers that it pushes. -/
theorem apply {calls : List InitCall} {c : InitCall}
    (h : Registered r (namesOf calls) (namesOf calls) (headersOf calls))
    (hdistinct : (namesOf (calls ++ [c])).Nodup) :
    Registered (c.apply r) (namesOf (calls ++ [c])) (namesOf (calls ++ [c]))
      (headersOf (calls ++ [c])) := by
  rw [namesOf_concat] at hdistinct
  rw [namesOf_concat, headersOf_concat]
  have hnew : ∀ name ∈ c.names, name ∉ namesOf calls :=
    fun name hc hold => List.disjoint_of_nodup_append hdistinct hold hc
  cases c with
  | section_ name =>
      have hname := hnew name (by simp [InitCall.names])
      obtain ⟨hstored, hoffset⟩ := h.storeSectionName hname
      have hheader := hstored.registerHeader hname (by simp : name ∈ _ ++ [name])
      rw [← hoffset] at hheader
      exact hheader
  | strtables a b =>
      have ha := hnew a (by simp [InitCall.names])
      have hb : b ∉ namesOf calls ++ [a] := by
        have hpair := hdistinct.of_append_right
        simp only [InitCall.names, List.nodup_cons, List.mem_singleton] at hpair
        rw [List.mem_append, List.mem_singleton, not_or]
        exact ⟨hnew b (by simp [InitCall.names]), fun heq => hpair.1 heq.symm⟩
      -- both names are stored before either is entered
      obtain ⟨hstored, hoffset⟩ := h.storeSectionName ha
      obtain ⟨hstored', hoffset'⟩ := hstored.storeSectionName hb
      have hfirst := hstored'.registerHeader ha (by simp : b ∈ _ ++ [b])
      have hsecond := hfirst.registerHeader hb (by simp : a ∈ _ ++ [a] ++ [b])
      rw [nameOffset_append (by simp : a ∈ _ ++ [a]), ← hoffset, ← hoffset'] at hsecond
      simp only [List.append_assoc, List.singleton_append] at hsecond
      simp only [InitCall.apply, InitCall.names, InitCall.headers]
      exact hsecond

end Registered

/-- **Any sequence of registrations** of distinct names. -/
theorem registered_foldl (calls : List InitCall) (hdistinct : (namesOf calls).Nodup) :
    Registered (registered calls) (namesOf calls) (namesOf calls) (headersOf calls) := by
  induction calls using List.reverseRecOn with
  | nil => exact Registered.start
  | append_singleton calls c ih =>
      have hprefix : (namesOf calls).Nodup := by
        rw [namesOf_concat] at hdistinct
        exact hdistinct.of_append_left
      rw [registered, List.foldl_append, List.foldl_cons, List.foldl_nil]
      exact (ih hprefix).apply hdistinct

/-- A name that a call of `section_` registers is among the names. -/
theorem mem_namesOf {calls : List InitCall} {name : Str} (h : .section_ name ∈ calls) :
    name ∈ namesOf calls :=
  List.mem_flatMap.mpr ⟨_, h, List.mem_singleton_self name⟩

/-- The header pushed next to a name is its own exactly when it is not one of the two that `strtables`
registers. -/
theorem headersOf_idxOf_iff {calls : List InitCall} (hdistinct : (namesOf calls).Nodup) {name : Str}
    (hname : name ∈ namesOf calls) :
    (headersOf calls)[(namesOf calls).idxOf name]? = some name ↔ .section_ name ∈ calls := by
  induction calls with
  | nil => cases hname
  | cons c calls ih =>
      cases c with
      | section_ n =>
          have hnames : namesOf (.section_ n :: calls) = n :: namesOf calls := rfl
          have hheaders : headersOf (.section_ n :: calls) = n :: headersOf calls := rfl
          rw [hnames] at hdistinct hname ⊢
          rw [hheaders]
          by_cases heq : n = name
          · subst heq
            simp
          · have hrest : name ∈ namesOf calls := by simpa [Ne.symm heq] using hname
            rw [List.idxOf_cons_ne _ heq, List.getElem?_cons_succ, ih hdistinct.of_cons hrest]
            simp [Ne.symm heq]
      | strtables a b =>
          have hnames : namesOf (.strtables a b :: calls) = a :: b :: namesOf calls := rfl
          have hheaders : headersOf (.strtables a b :: calls) = b :: a :: headersOf calls := rfl
          rw [hnames] at hdistinct hname ⊢
          rw [hheaders]
          obtain ⟨ha, hrest⟩ := List.nodup_cons.mp hdistinct
          obtain ⟨hb, hcalls⟩ := List.nodup_cons.mp hrest
          have hab : b ≠ a := fun heq => ha (heq ▸ List.mem_cons_self)
          by_cases hna : a = name
          · subst hna
            have hnot : .section_ a ∉ calls := fun h => ha (List.mem_cons_of_mem _ (mem_namesOf h))
            simp [hab, hnot]
          · by_cases hnb : b = name
            · subst hnb
              have hnot : .section_ b ∉ calls := fun h => hb (mem_namesOf h)
              simp [List.idxOf_cons_ne _ hna, hna, hnot]
            · have hmem : name ∈ namesOf calls := by simpa [Ne.symm hna, Ne.symm hnb] using hname
              rw [List.idxOf_cons_ne _ hna, List.idxOf_cons_ne _ hnb, List.getElem?_cons_succ,
                List.getElem?_cons_succ, ih hcalls hmem]
              simp

/-! ## Looking a section up -/

/-- A set of sections, in the order of their registration: distinct names without a NUL, whose table an
object file has room for. -/
structure SectionSet where
  calls : List InitCall
  distinct : (namesOf calls).Nodup
  nulFree : ∀ name ∈ namesOf calls, (0 : Byte) ∉ name
  fits : (tableBytes (namesOf calls)).length ≤ 2 ^ 32

namespace SectionSet

variable (S : SectionSet)

/-- The names of the sections. -/
def names : List Str := namesOf S.calls

/-- What has been registered. -/
def registry : Registry := registered S.calls

/-- How many names of the set come before a name in the order of the map. -/
def rank (name : Str) : ℕ := (S.names.filter (· < name)).length

theorem registered_registry : Registered S.registry S.names S.names (headersOf S.calls) :=
  registered_foldl S.calls S.distinct

/-- Every name takes a byte of the table. -/
theorem length_names_lt : S.names.length + 1 < 2 ^ 32 := by
  have hbody : ∀ names : List Str, names.length ≤ (body names).length := by
    intro names
    induction names with
    | nil => exact Nat.le_refl 0
    | cons name names ih =>
        simp only [body, List.flatMap_cons, List.length_append, List.length_cons] at ih ⊢
        omega
  have hfits : (tableBytes S.names).length ≤ 2 ^ 32 := S.fits
  have hle := hbody S.names
  unfold tableBytes at hfits
  split_ifs at hfits with hnil
  · rw [hnil]
    decide
  · simp only [List.length_cons, List.length_append, List.length_nil] at hfits
    omega

/-- The header at an index reads back. -/
theorem headerName_succ (i : ℕ) : S.registry.headerName (i + 1) = (headersOf S.calls)[i]? := by
  have h := S.registered_registry
  rw [Registry.headerName, h.shNames, h.shstrtab, List.getElem?_cons_succ, List.getElem?_map]
  cases hi : (headersOf S.calls)[i]? with
  | none => rfl
  | some name =>
      have hmem : name ∈ S.names := h.stored name (List.mem_of_getElem? hi)
      have hsplit : S.names.take (S.names.idxOf name) ++ name ::
          S.names.drop (S.names.idxOf name + 1) = S.names := by
        have hlt := List.idxOf_lt_length_of_mem hmem
        conv_rhs => rw [← List.take_append_drop (S.names.idxOf name) S.names,
          List.drop_eq_getElem_cons hlt, List.getElem_idxOf hlt]
      have hread := readCString_tableBytes (S.names.take (S.names.idxOf name))
        (S.names.drop (S.names.idxOf name + 1)) name
      rw [hsplit, cString_eq_self (S.nulFree name hmem)] at hread
      have hoffset : nameOffset S.names name < 2 ^ 32 :=
        (lt_length_of_readCString hread).trans_le S.fits
      rw [Option.map_some, Option.bind_some, BitVec.toNat_ofNat, Nat.mod_eq_of_lt hoffset]
      exact hread

theorem getSectionIdx_of_mem {name : Str} (h : name ∈ S.names) :
    (S.registry.getSectionIdx name).toNat = S.rank name := by
  have hreg := S.registered_registry
  have hmem : name ∈ S.registry.sectionToIdx := hreg.keys.mem_iff.mpr h
  have hcount : (S.registry.sectionToIdx.keys.filter (· < name)).length = S.rank name :=
    (hreg.keys.filter _).length_eq
  have hlt : S.rank name ≤ S.names.length := List.length_filter_le _ _
  have hsmall := S.length_names_lt
  rw [Registry.getSectionIdx, if_pos hmem, hcount, BitVec.toNat_ofNat]
  exact Nat.mod_eq_of_lt (by omega)

/-- The index that the map has for a name. -/
theorem lookup_of_mem {name : Str} (h : name ∈ S.names) :
    S.registry.sectionToIdx.lookup name = some (BitVec.ofNat 32 (S.names.idxOf name + 1)) :=
  S.registered_registry.lookup name h

/-- Both indices of a name, as numbers. -/
theorem index_of_mem {name : Str} (h : name ∈ S.names) :
    (S.registry.sectionToIdx.lookup name).map BitVec.toNat = some (S.names.idxOf name + 1) ∧
      (S.registry.getSectionIdx name).toNat = S.rank name := by
  refine ⟨?_, S.getSectionIdx_of_mem h⟩
  have hindex : S.names.idxOf name + 1 < 2 ^ 32 := by
    have hlt := List.idxOf_lt_length_of_mem h
    have hsmall := S.length_names_lt
    omega
  rw [S.lookup_of_mem h, Option.map_some, BitVec.toNat_ofNat, Nat.mod_eq_of_lt hindex]

/-- The last name is not behind all of the others and itself. -/
theorem exists_rank_ne (h : S.names ≠ []) :
    ∃ name ∈ S.names, S.rank name ≠ S.names.idxOf name + 1 := by
  obtain hnil | ⟨pre, last, hsplit⟩ := S.names.eq_nil_or_concat'
  · exact absurd hnil h
  · have hlast : last ∉ pre := by
      have hdistinct : S.names.Nodup := S.distinct
      rw [hsplit] at hdistinct
      exact fun hmem => List.disjoint_of_nodup_append hdistinct hmem List.mem_cons_self
    refine ⟨last, by simp [hsplit], ?_⟩
    have hrank : S.rank last ≤ pre.length := by
      have hirrefl : ¬ last < last := List.lt_irrefl last
      rw [rank, hsplit, List.filter_append, List.filter_singleton]
      simp only [hirrefl, decide_false, cond_false, List.append_nil]
      exact List.length_filter_le _ _
    rw [hsplit, List.idxOf_append_of_notMem hlast, List.idxOf_cons_self]
    omega

end SectionSet

/-- `get_section_idx` finds a section: for a registered name its result is the index of a header that
reads back as the name, and the map has it too; for another name it is `SIZE_MAX`. -/
structure LooksUp (S : SectionSet) (name : Str) : Prop where
  header : name ∈ S.names →
    S.registry.headerName (S.registry.getSectionIdx name).toNat = some name
  agrees : name ∈ S.names →
    (S.registry.sectionToIdx.lookup name).map BitVec.toNat =
      some (S.registry.getSectionIdx name).toNat
  missing : name ∉ S.names → S.registry.getSectionIdx name = BitVec.allOnes 64

/-- A registered name is found when its own header has been pushed with it, at the index that is the
number of names in front of it in the map. -/
theorem looksUp_of_mem (S : SectionSet) {name : Str} (hname : name ∈ S.names) :
    LooksUp S name ↔ .section_ name ∈ S.calls ∧ S.rank name = S.names.idxOf name + 1 := by
  obtain ⟨hmap, hidx⟩ := S.index_of_mem hname
  have hown := headersOf_idxOf_iff S.distinct hname
  constructor
  · rintro ⟨hheader, hagrees, -⟩
    have hrank : S.rank name = S.names.idxOf name + 1 := by
      have heq := hagrees hname
      rw [hmap, hidx] at heq
      exact (Option.some.inj heq).symm
    have hread := hheader hname
    rw [hidx, hrank, S.headerName_succ] at hread
    exact ⟨hown.mp hread, hrank⟩
  · rintro ⟨hcall, hrank⟩
    refine ⟨fun _ => ?_, fun _ => ?_, fun hnot => absurd hname hnot⟩
    · rw [hidx, hrank, S.headerName_succ]
      exact hown.mpr hcall
    · rw [hmap, hidx, hrank]

/-- An unregistered name is found missing. -/
theorem looksUp_of_notMem (S : SectionSet) {name : Str} (hname : name ∉ S.names) : LooksUp S name := by
  refine ⟨fun h => absurd h hname, fun h => absurd h hname, fun _ => ?_⟩
  have hmissing : name ∉ S.registry.sectionToIdx :=
    fun hmem => hname (S.registered_registry.keys.mem_iff.mp hmem)
  rw [Registry.getSectionIdx, if_neg hmissing]

/-- **When a section is found by its name**: when its own header has been pushed with it, at the index
that is the number of names in front of it in the map. All names of a set are found only if there is
none. -/
theorem looksUp_iff (S : SectionSet) :
    (∀ name, LooksUp S name ↔ (name ∈ S.names →
      .section_ name ∈ S.calls ∧ S.rank name = S.names.idxOf name + 1)) ∧
    ((∀ name, LooksUp S name) ↔ S.names = []) := by
  constructor
  · intro name
    by_cases hname : name ∈ S.names
    · rw [looksUp_of_mem S hname]
      exact (imp_iff_right hname).symm
    · exact iff_of_true (looksUp_of_notMem S hname) fun h => absurd h hname
  · constructor
    · intro hall
      by_contra hne
      obtain ⟨name, hname, hrank⟩ := S.exists_rank_ne hne
      exact hrank ((looksUp_of_mem S hname).mp (hall name)).2
    · intro hnil name
      exact looksUp_of_notMem S (hnil ▸ List.not_mem_nil)

/-- The sections of the constructor. -/
def initSections : SectionSet where
  calls := initCalls
  distinct := by decide
  nulFree := by decide
  fits := by decide

/-- `.data` has the header at index 5 and comes first in the map. -/
theorem data_not_looksUp : ¬ ∀ S name, LooksUp S name := by
  intro h
  have hagrees := (h initSections (str ".data")).agrees (by decide)
  revert hagrees
  decide

end RiscvAssembler
