import RiscvAssembler.Encoding
import RiscvAssembler.Lib.Bytes

/-!
# File records and sections (`defs.h`, `utils.h`, `section.h`, `strtab.cc`, `symtab.cc`, `data.cc`, `text.cc`)

The ELF32 records with their fields in file order, `write<T>`, and the four section classes. Every
section owns a copy of the header its `header` pointer points to; `Elf.lean` says which header of
the table that is. `std::vector<T>` is `List T`, `std::string` is a list of bytes (`Str`), `size_t`
is `ℕ` except where the code lets it wrap.

A string table is a list of bytes in the model as in the code. What it holds is stated by
`StringTable.Holds t names`: a NUL, every name with its NUL, and one more NUL at the end as soon as
there is a name. `addString` keeps the shape, appends its name (`holds_addString`), and returns the
offset at which the name starts (`addString_offset`); both cases of the code, the empty table and
the other one, come out the same. `StringTable.roundTrip` is about any sequence of additions.
-/

namespace RiscvAssembler

open Bytes

/-- A `std::string`, as the list of its bytes. -/
abbrev Str := List Byte

/-- The bytes of an ASCII literal of the source. -/
def str (s : String) : Str := s.toList.map fun c => BitVec.ofNat 8 c.toNat

/-! ## `write<T>` -/

/-- Source: `defs.h`, `byte_order`. -/
inductive ByteOrder
  | le | be
  deriving DecidableEq, Repr

/-- The bytes that `write<T>` sends to the stream, for a `T` of `w / 8` bytes.
Source: `utils.h`, `write`. -/
def write {w : ℕ} (value : BitVec w) (bo : ByteOrder) : List Byte :=
  let sizeofT := w / 8
  match bo with
  | .le => (List.range sizeofT).map fun i => (value >>> (8 * i)).setWidth 8
  -- the loop stores byte `i` at `sizeof(T) - i - 1`
  | .be => (List.range sizeofT).map fun j => (value >>> (8 * (sizeofT - j - 1))).setWidth 8

@[simp] theorem length_write {w : ℕ} (value : BitVec w) (bo : ByteOrder) :
    (write value bo).length = w / 8 := by
  cases bo <;> simp [write]

/-- In little-endian order `write<T>` sends the low bytes, least significant first. -/
theorem write_le {w : ℕ} (value : BitVec w) : write value .le = leBytes (w / 8) value.toNat := by
  apply List.map_congr_left
  intro i _
  apply BitVec.eq_of_toNat_eq
  rw [BitVec.toNat_setWidth, BitVec.toNat_ushiftRight, Nat.shiftRight_eq_div_pow, byteAt,
    BitVec.toNat_ofNat]

/-- In big-endian order `write<T>` sends the same bytes, most significant first. -/
theorem write_be {w : ℕ} (value : BitVec w) : write value .be = (write value .le).reverse := by
  apply List.ext_getElem
  · simp
  · intro i hi _
    rw [length_write] at hi
    have hindex : w / 8 - i - 1 = w / 8 - 1 - i := by omega
    rw [List.getElem_reverse]
    simp only [write, List.getElem_map, List.getElem_range, List.length_map, List.length_range, hindex]

/-- The low bytes of a value of whole bytes are all of it. -/
theorem ofLE_write_le {w : ℕ} (value : BitVec w) (hw : 8 ∣ w) :
    ofLE (write value .le) = value.toNat := by
  obtain ⟨n, rfl⟩ := hw
  have hpow : 2 ^ (8 * n) = 256 ^ n := by rw [Nat.pow_mul]
  rw [write_le, Nat.mul_div_cancel_left n (by decide)]
  exact ofLE_leBytes_of_lt (hpow ▸ value.isLt)

/-- An integer type: how many bytes its values take, and whether they have a sign. -/
structure IntType where
  sizeof : ℕ
  signed : Bool

namespace IntType

/-- The type holds the number. -/
def Holds (T : IntType) (v : ℤ) : Prop :=
  if T.signed then -2 ^ (8 * T.sizeof - 1) ≤ v ∧ v < 2 ^ (8 * T.sizeof - 1)
  else 0 ≤ v ∧ v < 2 ^ (8 * T.sizeof)

/-- A value of an integer type. -/
def Value (T : IntType) : Type := {v : ℤ // T.Holds v}

/-- `static_cast<UnsignedT>(value)`, which wraps a negative value around. -/
def toUnsigned (T : IntType) (value : T.Value) : BitVec (8 * T.sizeof) :=
  BitVec.ofInt (8 * T.sizeof) value.val

/-- **Round trip of `write<T>`**, for every integer type and either order of the bytes. -/
theorem write_reads_back (T : IntType) (value : T.Value) :
    let le := write (T.toUnsigned value) .le
    let be := write (T.toUnsigned value) .be
    le.length = T.sizeof ∧ be.length = T.sizeof ∧
      (ofLE le : ℤ) = value.val % 2 ^ (8 * T.sizeof) ∧
      (ofBE be : ℤ) = value.val % 2 ^ (8 * T.sizeof) ∧ be = le.reverse := by
  have hlength (bo : ByteOrder) : (write (T.toUnsigned value) bo).length = T.sizeof := by
    rw [length_write, Nat.mul_div_cancel_left T.sizeof (by decide)]
  have hle : (ofLE (write (T.toUnsigned value) .le) : ℤ) = value.val % 2 ^ (8 * T.sizeof) := by
    have hnonneg : 0 ≤ value.val % (2 ^ (8 * T.sizeof) : ℕ) := Int.emod_nonneg _ (by positivity)
    rw [ofLE_write_le _ ⟨T.sizeof, rfl⟩, toUnsigned, BitVec.toNat_ofInt,
      Int.toNat_of_nonneg hnonneg]
    push_cast
    rfl
  refine ⟨hlength .le, hlength .be, hle, ?_, write_be _⟩
  rw [write_be, ofBE_reverse]
  exact hle

end IntType

/-! ## Records -/

/-- Source: `defs.h`, `Elf32_Ehdr`. -/
structure Elf32Ehdr where
  eIdent : Vector Byte 16
  eType : BitVec 16
  eMachine : BitVec 16
  eVersion : BitVec 32
  eEntry : BitVec 32
  ePhoff : BitVec 32
  eShoff : BitVec 32
  eFlags : BitVec 32
  eEhsize : BitVec 16
  ePhentsize : BitVec 16
  ePhnum : BitVec 16
  eShentsize : BitVec 16
  eShnum : BitVec 16
  eShstrndx : BitVec 16

/-- Source: `elf.cc`, `Elf32_Ehdr::serialize`. -/
def Elf32Ehdr.serialize (h : Elf32Ehdr) : List Byte :=
  h.eIdent.toList ++ write h.eType .le ++ write h.eMachine .le ++ write h.eVersion .le ++
    write h.eEntry .le ++ write h.ePhoff .le ++ write h.eShoff .le ++ write h.eFlags .le ++
    write h.eEhsize .le ++ write h.ePhentsize .le ++ write h.ePhnum .le ++
    write h.eShentsize .le ++ write h.eShnum .le ++ write h.eShstrndx .le

/-- Source: `defs.h`, `Elf32_Shdr`. -/
structure Elf32Shdr where
  shName : BitVec 32 := 0
  shType : BitVec 32 := 0
  shFlags : BitVec 32 := 0
  shAddr : BitVec 32 := 0
  shOffset : BitVec 32 := 0
  shSize : BitVec 32 := 0
  shLink : BitVec 32 := 0
  shInfo : BitVec 32 := 0
  shAddralign : BitVec 32 := 0
  shEntsize : BitVec 32 := 0

/-- Source: `elf.cc`, `Elf32_Shdr::serialize`. -/
def Elf32Shdr.serialize (h : Elf32Shdr) (order : ByteOrder) : List Byte :=
  write h.shName order ++ write h.shType order ++ write h.shFlags order ++
    write h.shAddr order ++ write h.shOffset order ++ write h.shSize order ++
    write h.shLink order ++ write h.shInfo order ++ write h.shAddralign order ++
    write h.shEntsize order

/-- Source: `defs.h`, `Elf32_Sym`. -/
structure Elf32Sym where
  stName : BitVec 32 := 0
  stValue : BitVec 32 := 0
  stSize : BitVec 32 := 0
  stInfo : BitVec 8 := 0
  stOther : BitVec 8 := 0
  stShndx : BitVec 16 := 0
  deriving DecidableEq, Repr

/-- Source: `elf.cc`, `Elf32_Sym::serialize`. -/
def Elf32Sym.serialize (s : Elf32Sym) (bo : ByteOrder) : List Byte :=
  write s.stName bo ++ write s.stValue bo ++ write s.stSize bo ++ write s.stInfo bo ++
    write s.stOther bo ++ write s.stShndx bo

/-- `sizeof(Elf32_Ehdr)`. -/
def sizeofEhdr : ℕ := 52

/-- `sizeof(Elf32_Shdr)`. -/
def sizeofShdr : ℕ := 40

/-- `sizeof(Elf32_Sym)`. -/
def sizeofSym : ℕ := 16

@[simp] theorem Elf32Ehdr.length_serialize (h : Elf32Ehdr) : h.serialize.length = sizeofEhdr := by
  simp [serialize, sizeofEhdr]

@[simp] theorem Elf32Shdr.length_serialize (h : Elf32Shdr) (bo : ByteOrder) :
    (h.serialize bo).length = sizeofShdr := by
  simp [serialize, sizeofShdr]

@[simp] theorem Elf32Sym.length_serialize (s : Elf32Sym) (bo : ByteOrder) :
    (s.serialize bo).length = sizeofSym := by
  simp [serialize, sizeofSym]

/-- `SHT_NULL`, `SHT_PROGBITS`, `SHT_SYMTAB`, `SHT_STRTAB`. -/
def shtProgbits : BitVec 32 := 1
@[inherit_doc shtProgbits] def shtSymtab : BitVec 32 := 2
@[inherit_doc shtProgbits] def shtStrtab : BitVec 32 := 3

/-- `SHF_WRITE`, `SHF_ALLOC`, `SHF_EXECINSTR`. -/
def shfWrite : BitVec 32 := 1 <<< 0
@[inherit_doc shfWrite] def shfAlloc : BitVec 32 := 1 <<< 1
@[inherit_doc shfWrite] def shfExecinstr : BitVec 32 := 1 <<< 2

/-- `SHN_UNDEF`. -/
def shnUndef : BitVec 16 := 0

/-- `STB_LOCAL` and `STB_GLOBAL`. -/
def stbLocal : BitVec 32 := 0
@[inherit_doc stbLocal] def stbGlobal : BitVec 32 := 1

/-- The macro `ELF32_ST_BIND(i)`, which extracts a binding from an `st_info`. -/
def elf32StBind (i : BitVec 32) : BitVec 32 := i >>> 4

/-! ## String tables -/

/-- Source: `strtab.h`, `StringTable`. -/
structure StringTable where
  data : List Byte
  header : Elf32Shdr

namespace StringTable

/-- Source: `strtab.cc`, `StringTable::init_table` on an empty vector. -/
def initTable : List Byte := [0]

/-- Source: `strtab.cc`, `StringTable::size_in_bytes`. -/
def sizeInBytes (t : StringTable) : ℕ := t.data.length

/-- `data.insert(data.end() - 1, first, last)`. -/
def insertBeforeLast (data s : List Byte) : List Byte :=
  data.take (data.length - 1) ++ s ++ data.drop (data.length - 1)

/-- Store a NUL-terminated string and return its offset. The argument is a C string, so only the
bytes before the first NUL count.
Source: `strtab.cc`, `StringTable::add_string`. -/
def addString (t : StringTable) (s : Str) : StringTable × ℕ :=
  let s := cString s
  -- special case for the empty table
  let (data, offset) :=
    if t.data.length < 2 then (t.data ++ [0], 1) else (t.data, t.data.length - 1)
  let data := insertBeforeLast data s
  let data := insertBeforeLast data [0]
  ({ data, header := { t.header with shSize := BitVec.ofNat 32 data.length } }, offset)

/-- The NUL-terminated string at the returned pointer; `none` where the code throws.
Source: `strtab.cc`, `StringTable::get_string`. -/
def getString (t : StringTable) (offset : ℕ) : Option Str :=
  if offset ≥ t.data.length then none else readCString t.data offset

/-- Write the table to the stream and record where it went.
Source: `strtab.cc`, `StringTable::serialize`. -/
def serialize (t : StringTable) (os : OStream) : StringTable × OStream :=
  let os := os.seekEnd
  let header :=
    { t.header with
      shOffset := BitVec.ofNat 32 os.tellp
      shSize := BitVec.ofNat 32 t.sizeInBytes }
  ({ t with header }, os.write t.data)

/-- The strings of a table, each with its NUL. -/
def body (names : List Str) : List Byte := names.flatMap fun n => cString n ++ [0]

/-- The bytes of a table that holds the given strings, in order. -/
def tableBytes (names : List Str) : List Byte :=
  0 :: (body names ++ if names = [] then [] else [0])

/-- The table holds the strings, in order. -/
def Holds (t : StringTable) (names : List Str) : Prop := t.data = tableBytes names

theorem body_concat (names : List Str) (s : Str) :
    body (names ++ [s]) = body names ++ (cString s ++ [0]) := by
  simp [body]

theorem tableBytes_concat (names : List Str) (s : Str) :
    tableBytes (names ++ [s]) = 0 :: (body names ++ (cString s ++ [0, 0])) := by
  simp [tableBytes, body_concat]

theorem insertBeforeLast_concat (l s : List Byte) (b : Byte) :
    insertBeforeLast (l ++ [b]) s = l ++ s ++ [b] := by
  simp [insertBeforeLast]

/-- The bytes after `add_string`, and the offset it returns. -/
theorem addString_eq {t : StringTable} {names : List Str} (h : t.Holds names) (s : Str) :
    (t.addString s).1.data = tableBytes (names ++ [s]) ∧
      (t.addString s).2 = (body names).length + 1 := by
  rw [tableBytes_concat]
  rw [Holds, tableBytes] at h
  rcases names.eq_nil_or_concat' with rfl | ⟨names, n, rfl⟩
  · simp [addString, h, body, insertBeforeLast]
  · have hdata : t.data = (0 :: body (names ++ [n])) ++ [0] := by simp [h]
    have hlen : ¬ t.data.length < 2 := by
      rw [hdata]
      simp
    simp only [addString, if_neg hlen]
    rw [hdata, insertBeforeLast_concat, insertBeforeLast_concat]
    simp

/-- A table keeps its strings and gets the new one at its end. -/
theorem holds_addString {t : StringTable} {names : List Str} (h : t.Holds names) (s : Str) :
    (t.addString s).1.Holds (names ++ [s]) :=
  (addString_eq h s).1

/-- The offset of a stored string is the length of what was stored before it. -/
theorem addString_offset {t : StringTable} {names : List Str} (h : t.Holds names) (s : Str) :
    (t.addString s).2 = (body names).length + 1 :=
  (addString_eq h s).2

/-- A string that a table holds reads back at the place where it starts. -/
theorem readCString_tableBytes (pre post : List Str) (s : Str) :
    readCString (tableBytes (pre ++ s :: post)) ((body pre).length + 1) = some (cString s) := by
  have hsplit : tableBytes (pre ++ s :: post) =
      (0 :: body pre) ++ (cString s ++ 0 :: (body post ++ [0])) := by
    simp [tableBytes, body]
  rw [hsplit]
  exact readCString_append (zero_notMem_cString s) _ (by simp)

/-! ### Sequences of additions -/

/-- A new table with the given header, after the strings have been added. -/
def added (header : Elf32Shdr) (names : List Str) : StringTable :=
  names.foldl (fun t s => (t.addString s).1) ⟨initTable, header⟩

/-- The offset that is returned for a string, when others have been added before it. -/
def addedAt (header : Elf32Shdr) (before : List Str) (s : Str) : ℕ :=
  ((added header before).addString s).2

/-- Strings added one after the other read back, then and later, from offsets in order; the table begins
and ends with a NUL. -/
structure RoundTrip (header : Elf32Shdr) (names : List Str) : Prop where
  positive : ∀ pre s post, names = pre ++ s :: post → 1 ≤ addedAt header pre s
  reads : ∀ pre s mid post, names = pre ++ s :: (mid ++ post) →
    (added header (pre ++ s :: mid)).getString (addedAt header pre s) = some s
  /-- A string and its NUL end before the next string begins. -/
  apart : ∀ pre s mid s' post, names = pre ++ s :: (mid ++ s' :: post) →
    addedAt header pre s + (s.length + 1) ≤ addedAt header (pre ++ s :: mid) s'
  first : (added header names).data.head? = some 0
  last : (added header names).data.getLast? = some 0

theorem added_concat (header : Elf32Shdr) (names : List Str) (s : Str) :
    added header (names ++ [s]) = ((added header names).addString s).1 := by
  simp [added]

theorem holds_added (header : Elf32Shdr) (names : List Str) : (added header names).Holds names := by
  induction names using List.reverseRecOn with
  | nil => rfl
  | append_singleton names s ih =>
      rw [added_concat]
      exact holds_addString ih s

theorem addedAt_eq (header : Elf32Shdr) (names : List Str) (s : Str) :
    addedAt header names s = (body names).length + 1 :=
  addString_offset (holds_added header names) s

/-- From the first addition on, the header has the size of the table, in 32 bits. -/
theorem shSize_added (header : Elf32Shdr) {names : List Str} (h : names ≠ []) :
    (added header names).header.shSize = BitVec.ofNat 32 (added header names).data.length := by
  obtain rfl | ⟨pre, s, rfl⟩ := names.eq_nil_or_concat'
  · exact absurd rfl h
  · rw [added_concat]
    rfl

/-- **Round trip of the string table.** The size in the header has 32 bits. -/
theorem roundTrip (header : Elf32Shdr) (names : List Str) (hnames : ∀ s ∈ names, (0 : Byte) ∉ s) :
    RoundTrip header names ∧ (names ≠ [] →
      (added header names).header.shSize = BitVec.ofNat 32 (added header names).data.length) := by
  refine ⟨?_, shSize_added header⟩
  constructor
  case positive =>
    intro pre s post _
    rw [addedAt_eq]
    omega
  case reads =>
    intro pre s mid post hsplit
    have hs : cString s = s := cString_eq_self (hnames s (by simp [hsplit]))
    have hread := readCString_tableBytes pre mid s
    rw [← holds_added header (pre ++ s :: mid), ← addedAt_eq header, hs] at hread
    unfold getString
    split_ifs with hout
    · -- past the end of the table nothing reads back
      rw [readCString, List.drop_eq_nil_of_le hout] at hread
      simp at hread
    · exact hread
  case apart =>
    intro pre s mid s' post hsplit
    have hs : cString s = s := cString_eq_self (hnames s (by simp [hsplit]))
    rw [addedAt_eq, addedAt_eq]
    simp only [body, List.flatMap_append, List.flatMap_cons, List.length_append, hs]
    simp only [List.length_cons, List.length_nil]
    omega
  case first =>
    rw [holds_added header names]
    rfl
  case last =>
    rw [holds_added header names]
    unfold tableBytes
    split_ifs with hnil
    · rw [hnil]
      rfl
    · rw [← List.cons_append, List.getLast?_concat]

/-- The empty string twice, and another one. -/
theorem roundTrip_repeated :
    (∀ s ∈ [str "", str "a", str ""], (0 : Byte) ∉ s) ∧
      RoundTrip {} [str "", str "a", str ""] ∧ ([str "", str "a", str ""] ≠ [] →
        (added {} [str "", str "a", str ""]).header.shSize =
          BitVec.ofNat 32 (added {} [str "", str "a", str ""]).data.length) :=
  have hnames : ∀ s ∈ [str "", str "a", str ""], (0 : Byte) ∉ s := by decide
  ⟨hnames, roundTrip {} _ hnames⟩

/-- The size of a table that holds one string of `2 ^ 32` bytes is cut to 32 bits. -/
theorem size_cut : ¬ ∀ (header : Elf32Shdr) names, (∀ s ∈ names, (0 : Byte) ∉ s) →
    RoundTrip header names ∧
      (added header names).header.shSize.toNat = (added header names).data.length := by
  intro h
  have hlong : ∀ n, ∃ s : Str, (0 : Byte) ∉ s ∧ s.length = n := by
    intro n
    refine ⟨List.replicate n 1, fun hmem => ?_, List.length_replicate⟩
    exact absurd (List.eq_of_mem_replicate hmem) (by decide)
  obtain ⟨s, hzero, hs⟩ := hlong (2 ^ 32)
  obtain ⟨-, hsize⟩ := h {} [s] (by simpa using hzero)
  have hlen : s.length < (added {} [s]).data.length := by
    rw [holds_added {} [s]]
    simp only [tableBytes, body, List.flatMap_cons, List.flatMap_nil, cString_eq_self hzero,
      List.length_cons, List.length_append]
    omega
  have hlt := (added {} [s]).header.shSize.isLt
  omega

end StringTable

/-! ## The other sections -/

/-- Source: `symtab.h`, `Symtab`. -/
structure Symtab where
  data : List Elf32Sym
  header : Elf32Shdr

/-- Source: `symtab.cc`, `Symtab::size_in_bytes`. -/
def Symtab.sizeInBytes (t : Symtab) : ℕ := t.data.length * sizeofSym

/-- Source: `symtab.cc`, `Symtab::push`. -/
def Symtab.push (t : Symtab) (sym : Elf32Sym) : Symtab :=
  let data := t.data ++ [sym]
  { data, header := { t.header with shSize := BitVec.ofNat 32 (data.length * sizeofSym) } }

/-- The bytes of the entries, one after the other. -/
def Symtab.bytes (t : Symtab) (bo : ByteOrder) : List Byte :=
  t.data.flatMap fun s => s.serialize bo

/-- Source: `symtab.cc`, `Symtab::serialize`. -/
def Symtab.serialize (t : Symtab) (os : OStream) (bo : ByteOrder) : Symtab × OStream :=
  if t.data.length > 0 then
    let header :=
      { t.header with
        shOffset := BitVec.ofNat 32 os.tellp
        shSize := BitVec.ofNat 32 t.sizeInBytes }
    ({ t with header }, t.data.foldl (fun os s => os.write (s.serialize bo)) os)
  else (t, os)

/-- Source: `data.h`, `Data`. -/
structure Data where
  data : List Byte
  header : Elf32Shdr

/-- Source: `data.cc`, `Data::push(std::string)`. -/
def Data.push (d : Data) (entry : Str) : Data × ℕ :=
  let offset := d.data.length
  let data := d.data ++ entry
  ({ data, header := { d.header with shSize := BitVec.ofNat 32 data.length } }, offset)

/-- Source: `data.cc`, `Data::serialize`. -/
def Data.serialize (d : Data) (os : OStream) : OStream := os.write d.data

/-- Source: `text.h`, `Text`. -/
structure Text where
  data : List Word
  header : Elf32Shdr

namespace Text

/-- Source: `text.cc`, `Text::push`. -/
def push (t : Text) (instr : Word) : Text :=
  let data := t.data ++ [instr]
  { data, header := { t.header with shSize := BitVec.ofNat 32 (data.length * 4) } }

/-- Source: `section.h`, `Section::last_index`. -/
def lastIndex (t : Text) : ℕ := if t.data.length > 0 then t.data.length - 1 else 0

/-- Source: `section.h`, `Section::next_index`. -/
def nextIndex (t : Text) : ℕ := t.data.length

/-- `none` where the code returns `false` and leaves its output argument alone.
Source: `section.h`, `Section::get_entry`. -/
def getEntry (t : Text) (idx : ℕ) : Option Word := t.data[idx]?

/-- Source: `section.h`, `Section::update_entry`. -/
def updateEntry (t : Text) (idx : ℕ) (val : Word) : Text :=
  if idx ≥ t.data.length then t else { t with data := t.data.set idx val }

/-- The bytes of the words, one after the other. -/
def bytes (t : Text) (bo : ByteOrder) : List Byte := t.data.flatMap fun w => write w bo

/-- Source: `text.cc`, `Text::serialize`. -/
def serialize (t : Text) (os : OStream) (bo : ByteOrder) : OStream :=
  t.data.foldl (fun os w => os.write (write w bo)) os

@[simp] theorem data_push (t : Text) (w : Word) : (t.push w).data = t.data ++ [w] := rfl

/-- Updating an entry outside the section does nothing, as `List.set` does. -/
@[simp] theorem data_updateEntry (t : Text) (idx : ℕ) (val : Word) :
    (t.updateEntry idx val).data = t.data.set idx val := by
  unfold updateEntry
  split_ifs with h
  · exact (List.set_eq_of_length_le h).symm
  · rfl

@[simp] theorem header_updateEntry (t : Text) (idx : ℕ) (val : Word) :
    (t.updateEntry idx val).header = t.header := by
  unfold updateEntry
  split_ifs <;> rfl

theorem lastIndex_eq (t : Text) : t.lastIndex = t.data.length - 1 := by
  unfold lastIndex
  split_ifs <;> omega

end Text

end RiscvAssembler
