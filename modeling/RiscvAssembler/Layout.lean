import RiscvAssembler.Elf
import RiscvAssembler.Lib.Gabi

/-!
# The layout of the object file

* `Shaped` is what every operation on the object keeps: the header table and the two lists of
  sections are those of the constructor, and each header's size is that of its section, in 32 bits
  (`shaped_of_reachable`).
* `file_eq`: the file of a shaped object is its parts laid end to end, the ELF header, `.text`,
  `.data`, the two string tables, the symbol table and the header table, with the final headers.
* `recovered`: a reader that knows only the generic ABI gets all sections, their names and their
  places back from a file of less than `2 ^ 32` bytes.
* `file_eq_file_iff`: objects that differ in words and symbols alone differ in their files.
* `aligned_iff`: which files have their header table and their symbol table at multiples of 4.
-/

namespace RiscvAssembler

open Bytes Gabi

namespace ELF32

/-! ## The invariant -/

/-- The parts of an object that the file's layout depends on. -/
structure Shaped (e : ELF32) : Prop where
  elfHeader : e.elfHeader = init.elfHeader
  sectionHeaders : e.sectionHeaders = [.first, .strtab, .shstrtab, .symtab, .text, .data]
  headerShstrtab : e.headerShstrtab = .shstrtab
  sections : e.sections = [.text, .data]
  firstEntry : e.firstEntry = {}
  shstrtab : e.shstrtab = init.shstrtab
  strtab : e.strtab.header =
    { shName := 11, shType := shtStrtab, shSize := BitVec.ofNat 32 e.strtab.data.length }
  symtab : e.symtab.header =
    { shName := 19
      shType := shtSymtab
      shSize := BitVec.ofNat 32 (e.symtab.data.length * sizeofSym)
      shLink := 1
      shInfo := 1
      shEntsize := 16 }
  symtab_ne : e.symtab.data ≠ []
  text : e.secText.header =
    { shName := 27
      shType := shtProgbits
      shFlags := shfAlloc ||| shfExecinstr
      shSize := BitVec.ofNat 32 (e.secText.data.length * 4) }
  data : e.secData.header =
    { shName := 33
      shType := shtProgbits
      shFlags := shfAlloc ||| shfWrite
      shSize := BitVec.ofNat 32 e.secData.data.length }

theorem shaped_init : Shaped init :=
  ⟨rfl, rfl, rfl, rfl, rfl, rfl, rfl, rfl, by decide, rfl, rfl⟩

variable {e : ELF32}

theorem Shaped.initLabel (h : Shaped e) (l : Str) (isGlobal : Bool) (sectionName : Str) :
    Shaped (e.initLabel l isGlobal sectionName) := by
  unfold ELF32.initLabel
  split_ifs
  · exact h
  · refine ⟨h.elfHeader, h.sectionHeaders, h.headerShstrtab, h.sections, h.firstEntry, h.shstrtab, ?_,
      ?_, ?_, h.text, h.data⟩
    · simp [storeRegularString, StringTable.addString, h.strtab, StringTable.sizeInBytes]
    · simp [storeRegularString, Symtab.push, h.symtab]
    · simp [Symtab.push]

theorem Shaped.addProgramData (h : Shaped e) (varName value sectionName : Str) :
    Shaped (e.addProgramData varName value sectionName) := by
  simp only [ELF32.addProgramData, storeRegularString, sectionToIdxAt]
  split <;>
    refine ⟨h.elfHeader, h.sectionHeaders, h.headerShstrtab, h.sections, h.firstEntry, h.shstrtab, ?_,
      ?_, ?_, h.text, ?_⟩ <;>
    simp [StringTable.addString, h.strtab, StringTable.sizeInBytes, Symtab.push, h.symtab, Data.push,
      h.data]

theorem Shaped.addToText (h : Shaped e) (instr : Word) : Shaped (e.addToText instr) := by
  refine ⟨h.elfHeader, h.sectionHeaders, h.headerShstrtab, h.sections, h.firstEntry, h.shstrtab,
    h.strtab, h.symtab, h.symtab_ne, ?_, h.data⟩
  simp [ELF32.addToText, Text.push, h.text]

/-- An object that differs in nothing that the layout depends on. -/
theorem Shaped.of_kept (h : Shaped e) {e' : ELF32} (h1 : e'.elfHeader = e.elfHeader)
    (h2 : e'.sectionHeaders = e.sectionHeaders) (h3 : e'.headerShstrtab = e.headerShstrtab)
    (h4 : e'.sections = e.sections) (h5 : e'.firstEntry = e.firstEntry)
    (h6 : e'.shstrtab = e.shstrtab) (h7 : e'.strtab = e.strtab) (h8 : e'.symtab = e.symtab)
    (h9 : e'.secText.header = e.secText.header)
    (h10 : e'.secText.data.length = e.secText.data.length) (h11 : e'.secData = e.secData) :
    Shaped e' :=
  ⟨h1 ▸ h.elfHeader, h2 ▸ h.sectionHeaders, h3 ▸ h.headerShstrtab, h4 ▸ h.sections,
    h5 ▸ h.firstEntry, h6 ▸ h.shstrtab, h7 ▸ h.strtab, h8 ▸ h.symtab, h8 ▸ h.symtab_ne,
    by rw [h9, h10]; exact h.text, h11 ▸ h.data⟩

/-- A round of the fixup pass changes words, not their number. -/
theorem Shaped.resolveInstruction (h : Shaped e) (entry : UnresolvedInst32) :
    Shaped (e.resolveInstruction entry) := by
  have hlookup : Shaped (e.labelToAddrAt entry.hash).1 := by
    unfold labelToAddrAt
    split
    · exact h
    · exact h.of_kept rfl rfl rfl rfl rfl rfl rfl rfl rfl rfl rfl
  unfold ELF32.resolveInstruction
  simp only []
  split
  · exact hlookup.of_kept rfl rfl rfl rfl rfl rfl rfl rfl (by simp) (by simp) rfl
  · exact h

theorem Shaped.resolveUnresolvedInstructions (h : Shaped e) :
    Shaped e.resolveUnresolvedInstructions := by
  unfold ELF32.resolveUnresolvedInstructions
  generalize e.unresolvedInstructions = entries
  induction entries generalizing e with
  | nil => exact h
  | cons entry entries ih => exact ih (h.resolveInstruction entry)

/-- Every operation keeps the shape. -/
theorem Shaped.apply (h : Shaped e) (op : Op) : Shaped (op.apply e) := by
  cases op with
  | initLabel label isGlobal sectionName => exact h.initLabel label isGlobal sectionName
  | updateLabelVisibility label isGlobal =>
      change Shaped (e.updateLabelVisibility label isGlobal)
      unfold ELF32.updateLabelVisibility
      split_ifs
      · exact h
      · exact h.initLabel label isGlobal _
  | resolveLabel label =>
      change Shaped (e.resolveLabel label).1
      unfold ELF32.resolveLabel
      split
      · exact h
      · exact h.of_kept rfl rfl rfl rfl rfl rfl rfl rfl rfl rfl rfl
  | addSymbol symText sectionIdx offsetIdx symtabIdx isResolved isLabel =>
      exact h.of_kept rfl rfl rfl rfl rfl rfl rfl rfl rfl rfl rfl
  | addToText instr => exact h.addToText instr
  | addProgramData varName value sectionName => exact h.addProgramData varName value sectionName
  | addToUnresolvedInsns insnNumber insnType hash pcInsnNumber =>
      exact h.of_kept rfl rfl rfl rfl rfl rfl rfl rfl rfl rfl rfl
  | resolveUnresolvedInstructions => exact h.resolveUnresolvedInstructions

/-- **Every reachable object is shaped.** -/
theorem shaped_of_reachable (h : e.Reachable) : Shaped e := by
  obtain ⟨ops, rfl⟩ := h
  induction ops using List.reverseRecOn with
  | nil => exact shaped_init
  | append_singleton ops op ih =>
      rw [build, List.foldl_append]
      exact Shaped.apply ih op

/-! ## The file -/

/-- Where a section starts. -/
def dataOffset (e : ELF32) : ℕ := sizeofEhdr + 4 * e.secText.data.length
@[inherit_doc dataOffset] def strtabOffset (e : ELF32) : ℕ := e.dataOffset + e.secData.data.length
@[inherit_doc dataOffset] def shstrtabOffset (e : ELF32) : ℕ :=
  e.strtabOffset + e.strtab.data.length
@[inherit_doc dataOffset] def symtabOffset (e : ELF32) : ℕ :=
  e.shstrtabOffset + e.shstrtab.data.length

/-- Where the header table starts. -/
def tableOffset (e : ELF32) : ℕ := e.symtabOffset + sizeofSym * e.symtab.data.length

/-- The ELF header as it is written the second time. -/
def finalEhdr (e : ELF32) : Elf32Ehdr :=
  { init.elfHeader with
    eShoff := BitVec.ofNat 32 e.tableOffset
    eShnum := 6
    eShstrndx := 2 }

/-- The header table as it is written. -/
def finalShdrs (e : ELF32) : List Elf32Shdr :=
  [{},
    { e.strtab.header with shOffset := BitVec.ofNat 32 e.strtabOffset },
    { e.shstrtab.header with shOffset := BitVec.ofNat 32 e.shstrtabOffset },
    { e.symtab.header with shOffset := BitVec.ofNat 32 e.symtabOffset },
    { e.secText.header with shOffset := BitVec.ofNat 32 sizeofEhdr },
    { e.secData.header with shOffset := BitVec.ofNat 32 e.dataOffset }]

/-- The bytes of the header table. -/
def tableBytes (e : ELF32) : List Byte := e.finalShdrs.flatMap fun h => h.serialize .le

theorem length_textBytes (t : Text) : (t.bytes .le).length = 4 * t.data.length := by
  simp [Text.bytes, Nat.mul_comm]

theorem length_symtabBytes (t : Symtab) : (t.bytes .le).length = sizeofSym * t.data.length := by
  simp [Symtab.bytes, Nat.mul_comm]

theorem serialize_text (t : Text) (bs : List Byte) :
    t.serialize (OStream.atEnd bs) .le = OStream.atEnd (bs ++ t.bytes .le) := by
  unfold Text.serialize Text.bytes
  induction t.data generalizing bs with
  | nil => simp
  | cons w ws ih => simp [ih]

theorem serialize_symtab (t : Symtab) (ht : t.data ≠ []) (bs : List Byte) :
    t.serialize (OStream.atEnd bs) .le =
      ({ t with
          header :=
            { t.header with
              shOffset := BitVec.ofNat 32 bs.length
              shSize := BitVec.ofNat 32 t.sizeInBytes } },
        OStream.atEnd (bs ++ t.bytes .le)) := by
  have hfold : ∀ (syms : List Elf32Sym) (bs : List Byte),
      syms.foldl (fun os s => os.write (s.serialize .le)) (OStream.atEnd bs) =
        OStream.atEnd (bs ++ syms.flatMap fun s => s.serialize .le) := by
    intro syms
    induction syms with
    | nil => simp
    | cons s syms ih => intro bs; simp [ih]
  unfold Symtab.serialize Symtab.bytes
  rw [if_pos (List.length_pos_iff.mpr ht), hfold]
  rfl

/-- The state of the first loop of `serialize`, at its end. -/
theorem serializeSections (h : Shaped e) (bs : List Byte) :
    e.sections.foldl serializeSection (e, OStream.atEnd bs) =
      ({ e with
          secText :=
            { e.secText with
              header := { e.secText.header with shOffset := BitVec.ofNat 32 bs.length } }
          secData :=
            { e.secData with
              header :=
                { e.secData.header with
                  shOffset := BitVec.ofNat 32 (bs.length + 4 * e.secText.data.length) } } },
        OStream.atEnd (bs ++ e.secText.bytes .le ++ e.secData.data)) := by
  rw [h.sections]
  simp only [List.foldl_cons, List.foldl_nil, serializeSection, serialize_text, Data.serialize,
    OStream.write_atEnd, OStream.tellp_atEnd, List.length_append, length_textBytes, h.sections]

/-- The second loop of `serialize`, over the header table of the constructor. -/
theorem serializeHeaders (e : ELF32) (bs : List Byte) (hp : e.headerShstrtab = .shstrtab)
    (ht : e.shstrtab.header.shType = shtStrtab) :
    [HeaderPtr.first, .strtab, .shstrtab, .symtab, .text, .data].zipIdx.foldl serializeHeader
        (e, OStream.atEnd bs) =
      ({ e with elfHeader := { e.elfHeader with eShstrndx := 2 } },
        OStream.atEnd (bs ++ [e.firstEntry, e.strtab.header, e.shstrtab.header, e.symtab.header,
          e.secText.header, e.secData.header].flatMap fun h => h.serialize .le)) := by
  simp only [List.zipIdx_cons, List.zipIdx_nil, List.foldl_cons, List.foldl_nil, serializeHeader, hp,
    headerAt, reduceCtorEq, and_false, if_false, ht, and_self, if_true, OStream.write_atEnd,
    List.flatMap_cons, List.flatMap_nil, List.append_assoc, List.append_nil, zero_add]
  rfl

/-- The parts of the file, in order. -/
def parts (e : ELF32) : List (List Byte) :=
  [e.finalEhdr.serialize, e.secText.bytes .le, e.secData.data, e.strtab.data, e.shstrtab.data,
    e.symtab.bytes .le, e.tableBytes]

/-- **The file**: the parts, laid end to end, with the final headers. -/
theorem file_eq (h : Shaped e) : e.file = e.parts.flatten := by
  unfold file serialize
  rw [OStream.empty_eq, OStream.write_atEnd, List.nil_append]
  simp only [serializeSections h, StringTable.serialize, OStream.seekEnd_atEnd, OStream.write_atEnd,
    OStream.tellp_atEnd, serialize_symtab _ h.symtab_ne]
  rw [h.sectionHeaders, serializeHeaders]
  case hp => exact h.headerShstrtab
  case ht => simp only [h.shstrtab]; rfl
  simp only [List.append_assoc]
  rw [OStream.write_seekBeg _ _ _ (by simp only [Elf32Ehdr.length_serialize])]
  -- the sizes that `serialize` recomputes are the ones the headers have
  have hstrtab : BitVec.ofNat 32 e.strtab.sizeInBytes = e.strtab.header.shSize := by
    rw [h.strtab, StringTable.sizeInBytes]
  have hshstrtab : BitVec.ofNat 32 e.shstrtab.sizeInBytes = e.shstrtab.header.shSize := by
    rw [h.shstrtab]
    rfl
  have hsymtab : BitVec.ofNat 32 e.symtab.sizeInBytes = e.symtab.header.shSize := by
    rw [h.symtab, Symtab.sizeInBytes]
  simp only [parts, List.flatten_cons, List.flatten_nil, List.append_nil]
  simp only [finalEhdr, tableBytes, finalShdrs, h.elfHeader, h.firstEntry, hstrtab, hshstrtab, hsymtab,
    List.length_append, Elf32Ehdr.length_serialize, length_textBytes, length_symtabBytes, tableOffset,
    symtabOffset, shstrtabOffset, strtabOffset, dataOffset, Nat.add_assoc]
  rfl

theorem length_tableBytes (e : ELF32) : e.tableBytes.length = 6 * sizeofShdr := by
  simp [tableBytes, finalShdrs, sizeofShdr]

theorem length_file (h : Shaped e) : e.file.length = e.tableOffset + 6 * sizeofShdr := by
  rw [file_eq h, parts, List.length_flatten]
  simp only [List.map_cons, List.map_nil, List.sum_cons, List.sum_nil, Elf32Ehdr.length_serialize,
    length_textBytes, length_symtabBytes, length_tableBytes, tableOffset, symtabOffset, shstrtabOffset,
    strtabOffset, dataOffset]
  omega

end ELF32

/-! ## What a reader gets back -/

/-- A field of a record, by its width in bytes and its value. -/
def field {w : ℕ} (value : BitVec w) : ℕ × ℕ := (w / 8, value.toNat)

theorem write_le_field {w : ℕ} (value : BitVec w) : write value .le = leFields [field value] := by
  simp [write_le, leFields, field]

/-- So many bytes have so many values. -/
theorem pow_bytes (w : ℕ) : 256 ^ (8 * w / 8) = 2 ^ (8 * w) := by
  rw [Nat.mul_div_cancel_left w (by norm_num), pow_mul]
  norm_num

theorem field_lt {w : ℕ} (value : BitVec (8 * w)) : (field value).2 < 256 ^ (field value).1 := by
  rw [field, pow_bytes]
  exact value.isLt

/-- The fields of the ELF header after `e_ident`. -/
def Elf32Ehdr.fields (h : Elf32Ehdr) : List (ℕ × ℕ) :=
  [field h.eType, field h.eMachine, field h.eVersion, field h.eEntry, field h.ePhoff, field h.eShoff,
    field h.eFlags, field h.eEhsize, field h.ePhentsize, field h.ePhnum, field h.eShentsize,
    field h.eShnum, field h.eShstrndx]

/-- The ELF header as a reader sees it. -/
def Elf32Ehdr.view (h : Elf32Ehdr) : Ehdr where
  type := h.eType.toNat
  machine := h.eMachine.toNat
  version := h.eVersion.toNat
  entry := h.eEntry.toNat
  phoff := h.ePhoff.toNat
  shoff := h.eShoff.toNat
  flags := h.eFlags.toNat
  ehsize := h.eEhsize.toNat
  phentsize := h.ePhentsize.toNat
  phnum := h.ePhnum.toNat
  shentsize := h.eShentsize.toNat
  shnum := h.eShnum.toNat
  shstrndx := h.eShstrndx.toNat

theorem Elf32Ehdr.serialize_eq (h : Elf32Ehdr) :
    h.serialize = h.eIdent.toList ++ leFields h.fields := by
  simp only [serialize, write_le_field, fields, leFields, List.flatMap_cons, List.flatMap_nil,
    List.append_nil, List.append_assoc]

theorem Elf32Ehdr.fields_lt (h : Elf32Ehdr) : ∀ f ∈ h.fields, f.2 < 256 ^ f.1 := by
  have h2 := fun value : BitVec 16 => field_lt (w := 2) value
  have h4 := fun value : BitVec 32 => field_lt (w := 4) value
  simp only [fields, List.forall_mem_cons, h2, h4, true_and]
  simp

/-- A header with the right `e_ident` reads back. -/
theorem readEhdr_serialize (h : Elf32Ehdr) (hident : h.eIdent.toList.take 7 = identPrefix)
    (rest : List Byte) : readEhdr (h.serialize ++ rest) = some h.view := by
  have hlen : h.eIdent.toList.length = 16 := h.eIdent.length_toList
  have hread : readFields [2, 2, 4, 4, 4, 4, 4, 2, 2, 2, 2, 2, 2] (leFields h.fields ++ rest) =
      some (h.fields.map Prod.snd) := readFields_leFields h.fields h.fields_lt rest
  have htake : (h.serialize ++ rest).take 7 = identPrefix := by
    rw [h.serialize_eq, List.append_assoc, List.take_append_of_le_length (by omega), hident]
  have hdrop : (h.serialize ++ rest).drop 16 = leFields h.fields ++ rest := by
    rw [h.serialize_eq, List.append_assoc, List.drop_left' hlen]
  rw [readEhdr, if_pos htake, hdrop, hread]
  rfl

/-- The fields of a section header. -/
def Elf32Shdr.fields (h : Elf32Shdr) : List (ℕ × ℕ) :=
  [field h.shName, field h.shType, field h.shFlags, field h.shAddr, field h.shOffset, field h.shSize,
    field h.shLink, field h.shInfo, field h.shAddralign, field h.shEntsize]

/-- A section header as a reader sees it. -/
def Elf32Shdr.view (h : Elf32Shdr) : Shdr where
  name := h.shName.toNat
  type := h.shType.toNat
  flags := h.shFlags.toNat
  addr := h.shAddr.toNat
  offset := h.shOffset.toNat
  size := h.shSize.toNat
  link := h.shLink.toNat
  info := h.shInfo.toNat
  addralign := h.shAddralign.toNat
  entsize := h.shEntsize.toNat

theorem Elf32Shdr.serialize_eq (h : Elf32Shdr) : h.serialize .le = leFields h.fields := by
  simp only [serialize, write_le_field, fields, leFields, List.flatMap_cons, List.flatMap_nil,
    List.append_nil, List.append_assoc]

/-- A section header reads back. -/
theorem readShdr_serialize (h : Elf32Shdr) : readShdr (h.serialize .le) = some h.view := by
  have h4 := fun value : BitVec 32 => field_lt (w := 4) value
  have hlt : ∀ f ∈ h.fields, f.2 < 256 ^ f.1 := by
    simp only [Elf32Shdr.fields, List.forall_mem_cons, h4, true_and]
    simp
  have hread : readFields [4, 4, 4, 4, 4, 4, 4, 4, 4, 4] (leFields h.fields ++ []) =
      some (h.fields.map Prod.snd) := readFields_leFields h.fields hlt []
  rw [readShdr, h.serialize_eq, ← List.append_nil (leFields h.fields), hread]
  rfl

/-- The fields of a symbol table entry. -/
def Elf32Sym.fields (s : Elf32Sym) : List (ℕ × ℕ) :=
  [field s.stName, field s.stValue, field s.stSize, field s.stInfo, field s.stOther, field s.stShndx]

/-- A symbol table entry as a reader sees it. -/
def Elf32Sym.view (s : Elf32Sym) : Gabi.Sym where
  name := s.stName.toNat
  value := s.stValue.toNat
  size := s.stSize.toNat
  info := s.stInfo.toNat
  other := s.stOther.toNat
  shndx := s.stShndx.toNat

theorem Elf32Sym.serialize_eq (s : Elf32Sym) : s.serialize .le = leFields s.fields := by
  simp only [serialize, write_le_field, fields, leFields, List.flatMap_cons, List.flatMap_nil,
    List.append_nil, List.append_assoc]

/-- A symbol table entry reads back. -/
theorem readSym_serialize (s : Elf32Sym) : readSym (s.serialize .le) = some s.view := by
  have h1 := fun value : BitVec 8 => field_lt (w := 1) value
  have h2 := fun value : BitVec 16 => field_lt (w := 2) value
  have h4 := fun value : BitVec 32 => field_lt (w := 4) value
  have hlt : ∀ f ∈ s.fields, f.2 < 256 ^ f.1 := by
    simp only [Elf32Sym.fields, List.forall_mem_cons, h1, h2, h4, true_and]
    simp
  have hread : readFields [4, 4, 4, 1, 1, 2] (leFields s.fields ++ []) =
      some (s.fields.map Prod.snd) := readFields_leFields s.fields hlt []
  rw [readSym, s.serialize_eq, ← List.append_nil (leFields s.fields), hread]
  rfl

namespace ELF32

variable {e : ELF32}

/-- The header table starts where the ELF header says. -/
theorem shoff_toNat (h : Shaped e) (hlen : e.file.length < 2 ^ 32) :
    e.finalEhdr.view.shoff = e.tableOffset := by
  have hlt : e.tableOffset < 2 ^ 32 := by
    rw [length_file h] at hlen
    omega
  exact Nat.mod_eq_of_lt hlt

/-- The ELF header reads back. -/
theorem readEhdr_file (h : Shaped e) : readEhdr e.file = some e.finalEhdr.view := by
  rw [file_eq h, parts, List.flatten_cons]
  exact readEhdr_serialize _ rfl _

/-- The bytes of entry `i` of the header table. -/
theorem slice_shdr (h : Shaped e) {i : ℕ} (hi : i < e.finalShdrs.length) :
    slice e.file (e.tableOffset + i * sizeofShdr) sizeofShdr =
      some (e.finalShdrs[i].serialize .le) := by
  have hfile : e.file = e.parts.dropLast.flatten ++ e.tableBytes := by
    rw [file_eq h]
    simp [parts]
  have hpre : e.parts.dropLast.flatten.length = e.tableOffset := by
    have hl := length_file h
    rw [hfile, List.length_append, length_tableBytes] at hl
    omega
  have hslice := slice_flatMap (fun sh => Elf32Shdr.serialize sh .le) (w := sizeofShdr)
    (fun sh => Elf32Shdr.length_serialize sh .le) e.parts.dropLast.flatten e.finalShdrs (i := i) hi
  rw [hfile, ← hpre, tableBytes, hslice]

/-- Entry `i` of the header table reads back. -/
theorem sectionHeader_file (h : Shaped e) (hlen : e.file.length < 2 ^ 32) {i : ℕ}
    (hi : i < e.finalShdrs.length) :
    sectionHeader e.file e.finalEhdr.view i = some e.finalShdrs[i].view := by
  have hnum : i < e.finalEhdr.view.shnum := hi
  have hentsize : e.finalEhdr.view.shentsize = sizeofShdr := rfl
  rw [sectionHeader, if_pos hnum, shoff_toNat h hlen, hentsize, slice_shdr h hi, Option.bind_some,
    readShdr_serialize]

/-- What a reader finds in a file: the ELF header, and the headers of the five sections. -/
structure View where
  ehdr : Ehdr
  strtab : Shdr
  shstrtab : Shdr
  symtab : Shdr
  text : Shdr
  data : Shdr

/-- Section `i` of a file has the given header, and its name, its type and its bytes are those
given. -/
structure SectionAt (f : List Byte) (h : Ehdr) (i : ℕ) (sh : Shdr) (name : Str) (type : BitVec 32)
    (bytes : List Byte) : Prop where
  header : sectionHeader f h i = some sh
  name : sectionName f h sh = some name
  type : sh.type = type.toNat
  bytes : sectionBytes f sh = some bytes

/-- The bytes of a section, as a region of the file. -/
def region (sh : Shdr) : Region := ⟨sh.offset, sh.size⟩

/-- A reader of the file finds the object's sections: the header table ends the file, every entry
has its name and its bytes, `e_shstrndx` and the symbol table's `sh_link` select their tables, and
the ELF header, the sections and the header table are disjoint and cover the file. -/
structure Recovered (f : List Byte) (e : ELF32) (v : View) : Prop where
  ehdr : readEhdr f = some v.ehdr
  tableEnds : v.ehdr.shoff + v.ehdr.shnum * v.ehdr.shentsize = f.length
  shnum : v.ehdr.shnum = 6
  null : ∃ sh, SectionAt f v.ehdr 0 sh [] 0 []
  strtab : SectionAt f v.ehdr 1 v.strtab (str ".strtab") shtStrtab e.strtab.data
  shstrtab : SectionAt f v.ehdr 2 v.shstrtab (str ".shstrtab") shtStrtab e.shstrtab.data
  symtab : SectionAt f v.ehdr 3 v.symtab (str ".symtab") shtSymtab (e.symtab.bytes .le)
  text : SectionAt f v.ehdr 4 v.text (str ".text") shtProgbits (e.secText.bytes .le)
  data : SectionAt f v.ehdr 5 v.data (str ".data") shtProgbits e.secData.data
  shstrndx : sectionHeader f v.ehdr v.ehdr.shstrndx = some v.shstrtab
  symtabLink : sectionHeader f v.ehdr v.symtab.link = some v.strtab
  parts : Partition
    [⟨0, sizeofEhdr⟩, region v.text, region v.data, region v.strtab, region v.shstrtab,
      region v.symtab, ⟨v.ehdr.shoff, v.ehdr.shnum * v.ehdr.shentsize⟩] 0 f.length

/-- The headers of the object as a reader sees them. -/
def view (e : ELF32) : View where
  ehdr := e.finalEhdr.view
  strtab := Elf32Shdr.view { e.strtab.header with shOffset := BitVec.ofNat 32 e.strtabOffset }
  shstrtab := Elf32Shdr.view { e.shstrtab.header with shOffset := BitVec.ofNat 32 e.shstrtabOffset }
  symtab := Elf32Shdr.view { e.symtab.header with shOffset := BitVec.ofNat 32 e.symtabOffset }
  text := Elf32Shdr.view { e.secText.header with shOffset := BitVec.ofNat 32 sizeofEhdr }
  data := Elf32Shdr.view { e.secData.header with shOffset := BitVec.ofNat 32 e.dataOffset }

/-- The five regions that the headers give, as numbers. -/
theorem regions_view (h : Shaped e) (hlen : e.file.length < 2 ^ 32) :
    region e.view.text = ⟨sizeofEhdr, (e.secText.bytes .le).length⟩ ∧
      region e.view.data = ⟨e.dataOffset, e.secData.data.length⟩ ∧
      region e.view.strtab = ⟨e.strtabOffset, e.strtab.data.length⟩ ∧
      region e.view.shstrtab = ⟨e.shstrtabOffset, e.shstrtab.data.length⟩ ∧
      region e.view.symtab = ⟨e.symtabOffset, (e.symtab.bytes .le).length⟩ := by
  rw [length_file h] at hlen
  have hends : sizeofEhdr + (e.secText.bytes .le).length = e.dataOffset ∧
      e.dataOffset + e.secData.data.length = e.strtabOffset ∧
      e.strtabOffset + e.strtab.data.length = e.shstrtabOffset ∧
      e.shstrtabOffset + e.shstrtab.data.length = e.symtabOffset ∧
      e.symtabOffset + (e.symtab.bytes .le).length = e.tableOffset := by
    simp only [length_textBytes, length_symtabBytes, dataOffset, strtabOffset, shstrtabOffset,
      symtabOffset, tableOffset, and_self]
  have hshstrtab : e.shstrtab.header.shSize = BitVec.ofNat 32 e.shstrtab.data.length := by
    rw [h.shstrtab]
    rfl
  have htext : (e.secText.bytes .le).length = e.secText.data.length * 4 := by
    rw [length_textBytes, Nat.mul_comm]
  have hsymtab : (e.symtab.bytes .le).length = e.symtab.data.length * sizeofSym := by
    rw [length_symtabBytes, Nat.mul_comm]
  simp only [region, view, Elf32Shdr.view, h.text, h.data, h.strtab, h.symtab, hshstrtab, ← htext,
    ← hsymtab, BitVec.toNat_ofNat, Region.mk.injEq]
  refine ⟨⟨?_, ?_⟩, ⟨?_, ?_⟩, ⟨?_, ?_⟩, ⟨?_, ?_⟩, ⟨?_, ?_⟩⟩ <;>
    exact Nat.mod_eq_of_lt (by omega)

/-- A header whose region is that of a part of the file selects the bytes of the part. -/
theorem sectionBytes_part (h : Shaped e) {sh : Shdr} (i : ℕ) (hi : i < e.parts.length)
    (hr : region sh = ⟨((e.parts.take i).map List.length).sum, e.parts[i].length⟩) :
    sectionBytes e.file sh = some e.parts[i] := by
  obtain ⟨hoffset, hsize⟩ := Region.mk.inj hr
  rw [sectionBytes, hoffset, hsize, file_eq h]
  exact slice_flatten e.parts hi

/-- The bytes that the five headers select. -/
theorem sectionBytes_view (h : Shaped e) (hlen : e.file.length < 2 ^ 32) :
    sectionBytes e.file e.view.text = some (e.secText.bytes .le) ∧
      sectionBytes e.file e.view.data = some e.secData.data ∧
      sectionBytes e.file e.view.strtab = some e.strtab.data ∧
      sectionBytes e.file e.view.shstrtab = some e.shstrtab.data ∧
      sectionBytes e.file e.view.symtab = some (e.symtab.bytes .le) := by
  obtain ⟨htext, hdata, hstrtab, hshstrtab, hsymtab⟩ := regions_view h hlen
  refine ⟨sectionBytes_part h 1 (by simp [parts]) ?_, sectionBytes_part h 2 (by simp [parts]) ?_,
    sectionBytes_part h 3 (by simp [parts]) ?_, sectionBytes_part h 4 (by simp [parts]) ?_,
    sectionBytes_part h 5 (by simp [parts]) ?_⟩
  case refine_1 => rw [htext]; simp [parts]
  case refine_2 => rw [hdata]; simp [parts, dataOffset, length_textBytes]
  case refine_3 => rw [hstrtab]; simp [parts, strtabOffset, dataOffset, length_textBytes, add_assoc]
  case refine_4 =>
    rw [hshstrtab]
    simp [parts, shstrtabOffset, strtabOffset, dataOffset, length_textBytes, add_assoc]
  case refine_5 =>
    rw [hsymtab]
    simp [parts, symtabOffset, shstrtabOffset, strtabOffset, dataOffset, length_textBytes, add_assoc]

/-- The name of a header, read from the section name table of the constructor. -/
theorem sectionName_view (h : Shaped e) (hlen : e.file.length < 2 ^ 32) (sh : Shdr) :
    sectionName e.file e.view.ehdr sh = readCString init.shstrtab.data sh.name := by
  have hheader : sectionHeader e.file e.view.ehdr e.view.ehdr.shstrndx = some e.view.shstrtab :=
    sectionHeader_file h hlen (i := 2) (by simp [finalShdrs])
  rw [sectionName, hheader, Option.bind_some, (sectionBytes_view h hlen).2.2.2.1, Option.bind_some,
    h.shstrtab]

/-- **A shaped object's file reads back.** -/
theorem Shaped.reads_back (h : Shaped e) (hlen : e.file.length < 2 ^ 32) :
    Recovered e.file e e.view := by
  obtain ⟨htext, hdata, hstrtab, hshstrtab, hsymtab⟩ := regions_view h hlen
  obtain ⟨btext, bdata, bstrtab, bshstrtab, bsymtab⟩ := sectionBytes_view h hlen
  have hheader := fun i hi => sectionHeader_file h hlen (i := i) hi
  have hname := sectionName_view h hlen
  have hshoff : e.view.ehdr.shoff = e.tableOffset := shoff_toNat h hlen
  have htable : e.view.ehdr.shnum * e.view.ehdr.shentsize = 6 * sizeofShdr := rfl
  constructor
  case ehdr => exact readEhdr_file h
  case tableEnds => rw [hshoff, htable, length_file h]
  case shnum => rfl
  case null =>
    refine ⟨Elf32Shdr.view {}, hheader 0 (by simp [finalShdrs]), ?_, rfl, ?_⟩
    · rw [hname]
      rfl
    · change slice e.file 0 0 = some []
      simp [slice]
  case strtab =>
    have hoff : e.view.strtab.name = 11 := congrArg (fun hd => hd.shName.toNat) h.strtab
    refine ⟨hheader 1 (by simp [finalShdrs]), ?_, congrArg (fun hd => hd.shType.toNat) h.strtab,
      bstrtab⟩
    rw [hname, hoff]
    rfl
  case shstrtab =>
    have hoff : e.view.shstrtab.name = 1 := congrArg (fun t => t.header.shName.toNat) h.shstrtab
    refine ⟨hheader 2 (by simp [finalShdrs]), ?_,
      congrArg (fun t => t.header.shType.toNat) h.shstrtab, bshstrtab⟩
    rw [hname, hoff]
    rfl
  case symtab =>
    have hoff : e.view.symtab.name = 19 := congrArg (fun hd => hd.shName.toNat) h.symtab
    refine ⟨hheader 3 (by simp [finalShdrs]), ?_, congrArg (fun hd => hd.shType.toNat) h.symtab,
      bsymtab⟩
    rw [hname, hoff]
    rfl
  case text =>
    have hoff : e.view.text.name = 27 := congrArg (fun hd => hd.shName.toNat) h.text
    refine ⟨hheader 4 (by simp [finalShdrs]), ?_, congrArg (fun hd => hd.shType.toNat) h.text, btext⟩
    rw [hname, hoff]
    rfl
  case data =>
    have hoff : e.view.data.name = 33 := congrArg (fun hd => hd.shName.toNat) h.data
    refine ⟨hheader 5 (by simp [finalShdrs]), ?_, congrArg (fun hd => hd.shType.toNat) h.data, bdata⟩
    rw [hname, hoff]
    rfl
  case shstrndx => exact hheader 2 (by simp [finalShdrs])
  case symtabLink =>
    have hlink : e.view.symtab.link = 1 := congrArg (fun hd => hd.shLink.toNat) h.symtab
    rw [hlink]
    exact hheader 1 (by simp [finalShdrs])
  case parts =>
    rw [htext, hdata, hstrtab, hshstrtab, hsymtab, hshoff, htable, file_eq h, List.length_flatten]
    have hpartition := partition_regionsFrom 0 (e.parts.map List.length)
    rw [zero_add] at hpartition
    convert hpartition using 1
    simp [parts, regionsFrom, dataOffset, strtabOffset, shstrtabOffset, symtabOffset, tableOffset,
      length_textBytes, length_symtabBytes, length_tableBytes]

/-- The entries of the symbol table read back. -/
theorem Shaped.symbolAt_view (h : Shaped e) (hlen : e.file.length < 2 ^ 32) {k : ℕ}
    (hk : k < e.symtab.data.length) :
    symbolAt e.file e.view.symtab k = some e.symtab.data[k].view := by
  have hentsize : e.view.symtab.entsize = sizeofSym :=
    congrArg (fun hd => hd.shEntsize.toNat) h.symtab
  have hslice := slice_flatMap (fun s => Elf32Sym.serialize s .le) (w := sizeofSym)
    (fun s => Elf32Sym.length_serialize s .le) [] e.symtab.data hk
  rw [List.nil_append, List.length_nil, zero_add] at hslice
  rw [symbolAt, (sectionBytes_view h hlen).2.2.2.2, Option.bind_some, hentsize, Symtab.bytes, hslice,
    Option.bind_some, readSym_serialize]

/-! ## Two files -/

theorem write_le_injective {w : ℕ} : Function.Injective fun value : BitVec (8 * w) => write value .le := by
  intro value value' h
  have h' := congrArg ofLE h
  simp only [write_le, ofLE_leBytes] at h'
  rw [pow_bytes, Nat.mod_eq_of_lt value.isLt, Nat.mod_eq_of_lt value'.isLt] at h'
  exact BitVec.eq_of_toNat_eq h'

theorem serializeSym_injective : Function.Injective fun s : Elf32Sym => s.serialize .le := by
  intro s s' h
  have hview := congrArg readSym h
  simp only [readSym_serialize, Option.some.injEq] at hview
  injection hview with h1 h2 h3 h4 h5 h6
  cases s
  cases s'
  simp only [Elf32Sym.mk.injEq]
  exact ⟨BitVec.eq_of_toNat_eq h1, BitVec.eq_of_toNat_eq h2, BitVec.eq_of_toNat_eq h3,
    BitVec.eq_of_toNat_eq h4, BitVec.eq_of_toNat_eq h5, BitVec.eq_of_toNat_eq h6⟩

/-- Two objects with the same data and strings, and as many words and symbols, have one file iff the
words and the symbols are the same. -/
theorem file_eq_file_iff {e e' : ELF32} (h : Shaped e) (h' : Shaped e')
    (hdata : e.secData.data = e'.secData.data) (hstrtab : e.strtab.data = e'.strtab.data)
    (htext : e.secText.data.length = e'.secText.data.length)
    (hsymtab : e.symtab.data.length = e'.symtab.data.length) :
    e.file = e'.file ↔ e.secText.data = e'.secText.data ∧ e.symtab.data = e'.symtab.data := by
  have hshstrtab : e.shstrtab = e'.shstrtab := h.shstrtab.trans h'.shstrtab.symm
  have hehdr : e.finalEhdr = e'.finalEhdr := by
    simp only [finalEhdr, tableOffset, symtabOffset, shstrtabOffset, strtabOffset, dataOffset, htext,
      hdata, hstrtab, hshstrtab, hsymtab]
  have htable : e.tableBytes = e'.tableBytes := by
    simp only [tableBytes, finalShdrs, symtabOffset, shstrtabOffset, strtabOffset, dataOffset,
      h.strtab, h'.strtab, h.symtab, h'.symtab, h.text, h'.text, h.data, h'.data, htext, hdata,
      hstrtab, hshstrtab, hsymtab]
  rw [file_eq h, file_eq h']
  simp only [parts, List.flatten_cons, List.flatten_nil, hehdr, hdata, hstrtab, hshstrtab, htable,
    List.append_cancel_left_eq]
  constructor
  · intro heq
    obtain ⟨hwords, hrest⟩ := List.append_inj heq (by rw [length_textBytes, length_textBytes, htext])
    refine ⟨flatMap_inj (fun w => length_write w .le) (write_le_injective (w := 4)) htext hwords, ?_⟩
    simp only [List.append_cancel_left_eq, List.append_cancel_right_eq] at hrest
    exact flatMap_inj (fun s => s.length_serialize .le) serializeSym_injective hsymtab hrest
  · rintro ⟨hwords, hsyms⟩
    simp only [Text.bytes, Symtab.bytes, hwords, hsyms]

/-- **The file of every reachable object reads back**, as long as it has fewer than `2 ^ 32` bytes. -/
theorem recovered (ops : List Op) (hlen : (build ops).file.length < 2 ^ 32) :
    ∃ v, Recovered (build ops).file (build ops) v :=
  ⟨_, (shaped_of_reachable ⟨ops, rfl⟩).reads_back hlen⟩

/-! ## Alignment -/

/-- The header table and `.symtab` start at multiples of 4, says the file: its `e_shoff`, and the
`sh_offset` in the fourth of the six entries of the table at its end. -/
def Aligned (f : List Byte) : Prop :=
  4 ∣ (ehdrAt f).shoff ∧ 4 ∣ (shdrAt f (f.length - 6 * sizeofShdr + 3 * sizeofShdr)).offset

/-- **Which files are aligned**: nothing is padded, so those in which `.data` and the string table
together have a multiple of 4 bytes. -/
theorem aligned_iff (ops : List Op) :
    Aligned (build ops).file ↔
      4 ∣ (build ops).secData.data.length + (build ops).strtab.data.length := by
  have h : Shaped (build ops) := shaped_of_reachable ⟨ops, rfl⟩
  generalize build ops = e at h ⊢
  have hlen := length_file h
  have hehdr : ehdrAt e.file = e.finalEhdr.view := by
    apply ehdrAt_of_readEhdr ?_ (readEhdr_file h)
    simp only [hlen, sizeofShdr]
    omega
  have htable : e.file.length - 6 * sizeofShdr = e.tableOffset := by
    rw [hlen, Nat.add_sub_cancel]
  have hshdr : shdrAt e.file (e.tableOffset + 3 * sizeofShdr) = e.view.symtab := by
    apply shdrAt_of_readShdr
    have hslice := slice_shdr h (i := 3) (by simp [finalShdrs])
    rw [sizeofShdr] at hslice ⊢
    rw [hslice, Option.bind_some, readShdr_serialize]
    rfl
  have hshstrtab : e.shstrtab.data.length = 40 := by
    rw [h.shstrtab]
    rfl
  unfold Aligned
  rw [hehdr, htable, hshdr]
  show 4 ∣ e.tableOffset % 2 ^ 32 ∧ 4 ∣ e.symtabOffset % 2 ^ 32 ↔ _
  simp only [tableOffset, symtabOffset, shstrtabOffset, strtabOffset, dataOffset, hshstrtab, sizeofEhdr,
    sizeofSym]
  omega

/-- One label, `main`. -/
theorem main_not_aligned : ¬ ∀ ops, Aligned (build ops).file := by
  intro h
  have hdvd := (aligned_iff _).mp (h [.initLabel (str "main") false (str ".text")])
  revert hdvd
  decide

/-! ## A file with everything -/

/-- One call of each operation. -/
def oneOfEach : List Op :=
  [.resolveLabel (str "end"), .addToUnresolvedInsns 0 .bType (hasher (str "end")) 0,
    .addToText 0x63, .updateLabelVisibility (str "main") true, .initLabel (str "end") false [],
    .addSymbol (str "m") 4 0 0 true false, .addProgramData (str "m") (str "hi") (str ".data"),
    .resolveUnresolvedInstructions]

theorem length_file_oneOfEach : (build oneOfEach).file.length < 2 ^ 32 := by
  rw [length_file (shaped_of_reachable ⟨oneOfEach, rfl⟩)]
  decide

theorem recovered_oneOfEach :
    (build oneOfEach).file.length < 2 ^ 32 ∧
      ∃ v, Recovered (build oneOfEach).file (build oneOfEach) v :=
  ⟨length_file_oneOfEach, recovered oneOfEach length_file_oneOfEach⟩

end ELF32

end RiscvAssembler
