import Mathlib.Data.List.AList
import RiscvAssembler.Sections

/-!
# The object under construction (`elf.h`, `elf.cc`)

`ELF32` is the class of the same name, and every definition below is the member function its
docstring names, from a state to a state. `std::map` is `AList`, with `operator[]`'s insertion of a
default spelled out where the code uses it (`labelToAddrAt`, `sectionToIdxAt`).

The code shares section headers through pointers: a section's `header` member and an entry of
`section_headers` are one object. Here each section owns its header and the table holds
`HeaderPtr`s, which `headerAt` follows.

`Op` is the public interface for building an object, and `ELF32.Reachable` the states that
sequences of operations lead to from the constructor.
-/

namespace RiscvAssembler

open Bytes

/-- A `std::map` from strings. -/
abbrev StrMap (α : Type) := AList fun _ : Str => α

/-- The 32-bit FNV-1a hash of a string.
Source: `elf.h`, `hasher`. -/
def hasher (input : Str) : Word :=
  input.foldl (fun hash c => (hash ^^^ c.setWidth 32) * 16777619) 2166136261

/-- The global constant of `elf.h`, which the grammar's actions see (the class member of the same
name is another one). -/
def unresolvedIdx : BitVec 64 := 0xFAF0

/-- Source: `elf.h`, `UnresolvedInst32`. -/
structure UnresolvedInst32 where
  insnNumber : Word
  pcInsnNumber : Word
  insnType : InstType
  hash : Word
  deriving DecidableEq, Repr

/-- Source: `elf.h`, `Sym`. -/
structure Sym where
  sectionIdx : BitVec 64
  offsetIdx : Word
  symtabIdx : BitVec 64
  resolved : Bool
  label : Bool
  deriving DecidableEq, Repr

/-- A pointer to a section header, named by its owner. -/
inductive HeaderPtr
  | first | strtab | shstrtab | symtab | text | data
  deriving DecidableEq, Repr

/-- A pointer to a member of `sections`. -/
inductive SectionPtr
  | text | data
  deriving DecidableEq, Repr

/-- Source: `elf.h`, `ELF32`. -/
structure ELF32 where
  elfHeader : Elf32Ehdr
  sectionHeaders : List HeaderPtr
  headerShstrtab : HeaderPtr
  sections : List SectionPtr
  /-- The object `first_entry` of `init_section_headers`. -/
  firstEntry : Elf32Shdr
  secData : Data
  secText : Text
  strtab : StringTable
  shstrtab : StringTable
  symtab : Symtab
  resolvedLabels : StrMap Word
  unresolvedLabels : StrMap Word
  sectionToIdx : StrMap Word
  symbols : StrMap Sym
  labelToAddr : AList fun _ : Word => Word
  unresolvedInstructions : List UnresolvedInst32

namespace ELF32

/-- Follow a pointer of the header table. -/
def headerAt (e : ELF32) : HeaderPtr → Elf32Shdr
  | .first => e.firstEntry
  | .strtab => e.strtab.header
  | .shstrtab => e.shstrtab.header
  | .symtab => e.symtab.header
  | .text => e.secText.header
  | .data => e.secData.header

/-! ## Strings and section numbers -/

/-- Source: `elf.cc`, `ELF32::store_section_name`. -/
def storeSectionName (e : ELF32) (name : Str) : ELF32 × ℕ :=
  let (shstrtab, offset) := e.shstrtab.addString name
  ({ e with shstrtab }, offset)

/-- Source: `elf.cc`, `ELF32::store_regular_string`. -/
def storeRegularString (e : ELF32) (s : Str) : ELF32 × ℕ :=
  let (strtab, offset) := e.strtab.addString s
  let header := { strtab.header with shSize := BitVec.ofNat 32 strtab.sizeInBytes }
  ({ e with strtab := { strtab with header } }, offset)

/-- `section_to_idx[section]`: a missing name is entered with the value zero. -/
def sectionToIdxAt (e : ELF32) (name : Str) : ELF32 × Word :=
  match e.sectionToIdx.lookup name with
  | some i => (e, i)
  | none => ({ e with sectionToIdx := e.sectionToIdx.insert name 0 }, 0)

/-- The position of the name in the map's order, which is the number of smaller keys; `SIZE_MAX`
when there is none.
Source: `elf.cc`, `ELF32::get_section_idx`. -/
def getSectionIdx (e : ELF32) (name : Str) : BitVec 64 :=
  if name ∈ e.sectionToIdx then
    BitVec.ofNat 64 (e.sectionToIdx.keys.filter (· < name)).length
  else BitVec.allOnes 64

/-! ## The constructor -/

/-- The members before the constructor's body has run. -/
def blank : ELF32 where
  elfHeader := ⟨Vector.replicate 16 0, 0, 0, 0, 0, 0, 0, 0, 0, 0, 0, 0, 0, 0⟩
  sectionHeaders := []
  headerShstrtab := .first
  sections := []
  firstEntry := {}
  secData := ⟨[], {}⟩
  secText := ⟨[], {}⟩
  strtab := ⟨StringTable.initTable, {}⟩
  shstrtab := ⟨StringTable.initTable, {}⟩
  symtab := ⟨[], {}⟩
  resolvedLabels := ∅
  unresolvedLabels := ∅
  sectionToIdx := ∅
  symbols := ∅
  labelToAddr := ∅
  unresolvedInstructions := []

/-- Source: `elf.cc`, `ELF32::init_elf_header`. -/
def initElfHeader (e : ELF32) : ELF32 :=
  { e with
    elfHeader :=
      { eIdent := #v[0x7f, 0x45, 0x4c, 0x46, 1, 1, 1, 0, 0, 0, 0, 0, 0, 0, 0, 0]
        eType := 1
        eMachine := 0xF3
        eVersion := 1
        eEntry := 0
        ePhoff := 0
        eShoff := 0
        eFlags := 0
        eEhsize := BitVec.ofNat 16 sizeofEhdr
        ePhentsize := 0
        ePhnum := 0
        eShentsize := BitVec.ofNat 16 sizeofShdr
        eShnum := 0
        eShstrndx := 0 } }

/-- Source: `elf.cc`, `ELF32::init_section_headers`. -/
def initSectionHeaders (e : ELF32) : ELF32 :=
  { e with firstEntry := {}, sectionHeaders := e.sectionHeaders ++ [.first] }

/-- `section_to_idx[name] = section_headers.size(); section_headers.push_back(sh)`. -/
def registerHeader (e : ELF32) (name : Str) (sh : HeaderPtr) : ELF32 :=
  { e with
    sectionToIdx := e.sectionToIdx.insert name (BitVec.ofNat 32 e.sectionHeaders.length)
    sectionHeaders := e.sectionHeaders ++ [sh] }

/-- The two names are registered in the order in which the other table's header is pushed.
Source: `elf.cc`, `ELF32::init_strtables`. -/
def initStrtables (e : ELF32) : ELF32 :=
  let strtab : StringTable := ⟨StringTable.initTable, { shType := shtStrtab }⟩
  let shstrtab : StringTable := ⟨StringTable.initTable, { shType := shtStrtab }⟩
  let strtab :=
    { strtab with
      header := { strtab.header with shSize := BitVec.ofNat 32 strtab.sizeInBytes } }
  let shstrtab :=
    { shstrtab with
      header := { shstrtab.header with shSize := BitVec.ofNat 32 shstrtab.sizeInBytes } }
  let e := { e with headerShstrtab := .shstrtab, strtab, shstrtab }
  let (e, name) := e.storeSectionName (str ".shstrtab")
  let e :=
    { e with
      shstrtab :=
        { e.shstrtab with
          header := { e.shstrtab.header with shName := BitVec.ofNat 32 name } } }
  let (e, name) := e.storeSectionName (str ".strtab")
  let e :=
    { e with
      strtab :=
        { e.strtab with header := { e.strtab.header with shName := BitVec.ofNat 32 name } } }
  (e.registerHeader (str ".shstrtab") .strtab).registerHeader (str ".strtab") .shstrtab

/-- Source: `elf.cc`, `ELF32::init_symtab`. -/
def initSymtab (e : ELF32) : ELF32 :=
  let (e, name) := e.storeSectionName (str ".symtab")
  let sh : Elf32Shdr :=
    { shType := shtSymtab
      shEntsize := BitVec.ofNat 32 sizeofSym
      shName := BitVec.ofNat 32 name
      shLink := 1
      shInfo := 1 }
  let e := { e with symtab := Symtab.push ⟨[], sh⟩ { stShndx := shnUndef } }
  e.registerHeader (str ".symtab") .symtab

/-- Source: `elf.cc`, `ELF32::init_text_section`. -/
def initTextSection (e : ELF32) : ELF32 :=
  let sh : Elf32Shdr := { shType := shtProgbits, shFlags := shfAlloc ||| shfExecinstr }
  let (e, name) := e.storeSectionName (str ".text")
  let e :=
    { e with
      secText := ⟨[], { sh with shName := BitVec.ofNat 32 name }⟩
      sections := e.sections ++ [SectionPtr.text] }
  e.registerHeader (str ".text") .text

/-- Source: `elf.cc`, `ELF32::init_data_section`. -/
def initDataSection (e : ELF32) : ELF32 :=
  let sh : Elf32Shdr := { shType := shtProgbits, shFlags := shfAlloc ||| shfWrite }
  let (e, name) := e.storeSectionName (str ".data")
  let e :=
    { e with
      secData := ⟨[], { sh with shName := BitVec.ofNat 32 name }⟩
      sections := e.sections ++ [SectionPtr.data] }
  e.registerHeader (str ".data") .data

/-- Source: `elf.cc`, `ELF32::ELF32`. -/
def init : ELF32 :=
  blank.initElfHeader.initSectionHeaders.initStrtables.initSymtab.initTextSection.initDataSection

/-! ## Labels and symbols -/

/-- Source: `elf.cc`, `ELF32::label_exists`. -/
def labelExists (e : ELF32) (label : Str) : Bool := label ∈ e.resolvedLabels

/-- The symbol table entry that `init_label` pushes. -/
def labelSym (e : ELF32) (idxStrtab : ℕ) (isGlobal : Bool) (sectionName : Str) : Elf32Sym :=
  { stName := BitVec.ofNat 32 idxStrtab
    stInfo := (elf32StBind (if isGlobal then stbGlobal else stbLocal)).setWidth 8
    stShndx :=
      match e.sectionToIdx.lookup sectionName with
      | some idx => idx.setWidth 16
      | none => 0 }

/-- Source: `elf.cc`, `ELF32::init_label`. -/
def initLabel (e : ELF32) (theLabel : Str) (isGlobal : Bool) (sectionName : Str) : ELF32 :=
  if e.labelExists theLabel then e
  else
    let (e, idxStrtab) := e.storeRegularString theLabel
    let sym := e.labelSym idxStrtab isGlobal sectionName
    let addr : Word := BitVec.ofNat 32 e.secText.lastIndex
    let symtab :=
      { e.symtab with
        header :=
          { e.symtab.header with
            shSize := e.symtab.header.shSize + BitVec.ofNat 32 sizeofSym } }
    { e with
      unresolvedLabels := e.unresolvedLabels.erase theLabel
      resolvedLabels := e.resolvedLabels.insert theLabel addr
      labelToAddr := e.labelToAddr.insert (hasher theLabel) addr
      symtab := symtab.push sym }

/-- An existing label keeps its visibility: the code only reports that the case is not yet
implemented.
Source: `elf.cc`, `ELF32::update_label_visibility`. -/
def updateLabelVisibility (e : ELF32) (label : Str) (isGlobal : Bool) : ELF32 :=
  if e.labelExists label then e else e.initLabel label isGlobal (str ".text")

/-- The status the code returns, and the value it leaves in `offset`.
Source: `elf.cc`, `ELF32::resolve_label`. -/
def resolveLabel (e : ELF32) (label : Str) : ELF32 × Int × Word :=
  match e.resolvedLabels.lookup label with
  | some addr => (e, 0, addr)
  | none =>
    ({ e with unresolvedLabels := e.unresolvedLabels.insert label (hasher label) }, -1,
      hasher label)

/-- Source: `elf.cc`, `ELF32::add_symbol`. -/
def addSymbol (e : ELF32) (symText : Str) (sectionIdx : BitVec 64) (offsetIdx : Word)
    (symtabIdx : BitVec 64) (isResolved isLabel : Bool) : ELF32 :=
  let s : Sym := ⟨sectionIdx, offsetIdx, symtabIdx, isResolved, isLabel⟩
  { e with symbols := e.symbols.insert symText s }

/-- Source: `elf.cc`, `ELF32::symbol_exists`. -/
def symbolExists (e : ELF32) (symText : Str) : Bool := symText ∈ e.symbols

/-- Source: `elf.cc`, `ELF32::symbol_resolved`. -/
def symbolResolved (e : ELF32) (symbol : Str) : Bool :=
  match e.symbols.lookup symbol with
  | some s => s.resolved
  | none => false

/-- The record found, or the empty record.
Source: `elf.cc`, `ELF32::resolve_symbol`. -/
def resolveSymbol (e : ELF32) (symbol : Str) : Sym :=
  (e.symbols.lookup symbol).getD ⟨0, 0, 0, false, false⟩

/-! ## Code and data -/

/-- Source: `elf.cc`, `ELF32::add_to_text`. -/
def addToText (e : ELF32) (instr : Word) : ELF32 := { e with secText := e.secText.push instr }

/-- Source: `elf.cc`, `ELF32::get_next_insn_number`. -/
def getNextInsnNumber (e : ELF32) (section_ : Str) : BitVec 64 :=
  if section_ = str ".text" then BitVec.ofNat 64 e.secText.nextIndex else 0

/-- Source: `elf.cc`, `ELF32::add_to_unresolved_insns`. -/
def addToUnresolvedInsns (e : ELF32) (insnNumber : Word) (insnType : InstType)
    (hash pcInsnNumber : Word) : ELF32 :=
  { e with
    unresolvedInstructions :=
      e.unresolvedInstructions ++ [⟨insnNumber, pcInsnNumber, insnType, hash⟩] }

/-- Source: `elf.cc`, `ELF32::add_program_data`. -/
def addProgramData (e : ELF32) (varName value section_ : Str) : ELF32 :=
  let (e, stName) := e.storeRegularString varName
  let (e, stShndx) := e.sectionToIdxAt section_
  let (secData, stValue) := e.secData.push value
  let sym : Elf32Sym :=
    { stName := BitVec.ofNat 32 stName
      stInfo := (elf32StBind stbLocal).setWidth 8
      stShndx := stShndx.setWidth 16
      stValue := BitVec.ofNat 32 stValue }
  { e with secData, symtab := e.symtab.push sym }

/-! ## The fixup pass -/

/-- `((resolved_insn_number - pc_insn_number)) * INSTRUCTION_WIDTH / 2`, as an `int32_t`: the
difference is taken in 32 bits, the product and the quotient in 64. -/
def resolvedEffectiveOffset (resolvedInsnNumber pcInsnNumber : Word) : Word :=
  ((resolvedInsnNumber - pcInsnNumber).setWidth 64 * instructionWidth / 2).setWidth 32

/-- The word that the pass puts in the place of `insn` for an entry whose label is at the given
index; `none` for the instruction types the switch does not handle.
Source: `elf.cc`, the switch of `ELF32::_resolve_unresolved_instructions`. -/
def patchedInsn (insnType : InstType) (insn resolvedInsnNumber pcInsnNumber : Word) :
    Option Word :=
  let offset := resolvedEffectiveOffset resolvedInsnNumber pcInsnNumber
  match insnType with
  | .bType =>
    let b := Btype32.deserialize insn
    some (emitBTypeInstruction offset (b.rs1.setWidth 32) (b.rs2.setWidth 32)
      (b.funct3.setWidth 32) (b.opcode.setWidth 32))
  | .uType =>
    let u := Utype32.deserialize insn
    some (emitUTypeInstruction offset (u.rd.setWidth 32) (u.opcode.setWidth 32))
  | .jType =>
    let j := Jtype32.deserialize insn
    some (emitJTypeInstruction offset (j.rd.setWidth 32) (j.opcode.setWidth 32))
  | _ => none

/-- `label_to_addr[hash]`: a missing hash is entered with the address zero. -/
def labelToAddrAt (e : ELF32) (hash : Word) : ELF32 × Word :=
  match e.labelToAddr.lookup hash with
  | some addr => (e, addr)
  | none => ({ e with labelToAddr := e.labelToAddr.insert hash 0 }, 0)

/-- One round of the loop. Where the slot is outside the section `get_entry` leaves `insn`
indeterminate, and `update_entry` then drops whatever was computed from it.
Source: `elf.cc`, the loop of `ELF32::_resolve_unresolved_instructions`. -/
def resolveInstruction (e : ELF32) (entry : UnresolvedInst32) : ELF32 :=
  let insn := (e.secText.getEntry entry.insnNumber.toNat).getD 0
  let (e', resolvedInsnNumber) := e.labelToAddrAt entry.hash
  match patchedInsn entry.insnType insn resolvedInsnNumber entry.pcInsnNumber with
  | some insn => { e' with secText := e'.secText.updateEntry entry.insnNumber.toNat insn }
  | none => e

/-- Source: `elf.cc`, `ELF32::_resolve_unresolved_instructions`. -/
def resolveUnresolvedInstructions (e : ELF32) : ELF32 :=
  e.unresolvedInstructions.foldl resolveInstruction e

/-! ## Serialization -/

/-- Serialize one of `sections` and record its place in its header.
Source: `elf.cc`, the first loop of `ELF32::serialize`. -/
def serializeSection (s : ELF32 × OStream) (it : SectionPtr) : ELF32 × OStream :=
  let (e, os) := s
  let pos : Word := BitVec.ofNat 32 os.tellp
  match it with
  | .text =>
    let os := e.secText.serialize os .le
    ({ e with secText := { e.secText with header := { e.secText.header with shOffset := pos } } },
      os)
  | .data =>
    let os := e.secData.serialize os
    ({ e with secData := { e.secData with header := { e.secData.header with shOffset := pos } } },
      os)

/-- Serialize one entry of the header table; the entry that is the section name table's gives the
ELF header its `e_shstrndx`.
Source: `elf.cc`, the second loop of `ELF32::serialize`. -/
def serializeHeader (s : ELF32 × OStream) (it : HeaderPtr × ℕ) : ELF32 × OStream :=
  let (e, os) := s
  let (sh, distance) := it
  let e :=
    if (e.headerAt sh).shType = shtStrtab ∧ sh = e.headerShstrtab then
      { e with elfHeader := { e.elfHeader with eShstrndx := BitVec.ofNat 16 distance } }
    else e
  (e, os.write ((e.headerAt sh).serialize .le))

/-- Source: `elf.cc`, `ELF32::serialize`. -/
def serialize (e : ELF32) (os : OStream) : ELF32 × OStream :=
  let os := os.write e.elfHeader.serialize
  let (e, os) := e.sections.foldl serializeSection (e, os)
  let (strtab, os) := e.strtab.serialize os
  let (shstrtab, os) := e.shstrtab.serialize os
  let (symtab, os) := e.symtab.serialize os .le
  let e :=
    { e with
      strtab, shstrtab, symtab
      elfHeader :=
        { e.elfHeader with
          eShoff := BitVec.ofNat 32 os.tellp
          eShnum := BitVec.ofNat 16 e.sectionHeaders.length } }
  let (e, os) := e.sectionHeaders.zipIdx.foldl serializeHeader (e, os)
  (e, os.seekBeg.write e.elfHeader.serialize)

/-- The bytes that `serialize` writes to a fresh stream. -/
def file (e : ELF32) : List Byte := (e.serialize OStream.empty).2.bytes

end ELF32

/-! ## Operations and reachable states -/

/-- A call of one of the operations that build an object. -/
inductive Op
  | initLabel (label : Str) (isGlobal : Bool) (sectionName : Str)
  | updateLabelVisibility (label : Str) (isGlobal : Bool)
  | resolveLabel (label : Str)
  | addSymbol (symText : Str) (sectionIdx : BitVec 64) (offsetIdx : Word) (symtabIdx : BitVec 64)
      (isResolved isLabel : Bool)
  | addToText (instr : Word)
  | addProgramData (varName value sectionName : Str)
  | addToUnresolvedInsns (insnNumber : Word) (insnType : InstType) (hash pcInsnNumber : Word)
  | resolveUnresolvedInstructions

/-- The effect of a call. -/
def Op.apply (e : ELF32) : Op → ELF32
  | .initLabel label isGlobal sectionName => e.initLabel label isGlobal sectionName
  | .updateLabelVisibility label isGlobal => e.updateLabelVisibility label isGlobal
  | .resolveLabel label => (e.resolveLabel label).1
  | .addSymbol symText sectionIdx offsetIdx symtabIdx isResolved isLabel =>
    e.addSymbol symText sectionIdx offsetIdx symtabIdx isResolved isLabel
  | .addToText instr => e.addToText instr
  | .addProgramData varName value sectionName => e.addProgramData varName value sectionName
  | .addToUnresolvedInsns insnNumber insnType hash pcInsnNumber =>
    e.addToUnresolvedInsns insnNumber insnType hash pcInsnNumber
  | .resolveUnresolvedInstructions => e.resolveUnresolvedInstructions

/-- The object after a sequence of calls on a newly constructed one. -/
def build (ops : List Op) : ELF32 := ops.foldl Op.apply ELF32.init

/-- The states that sequences of calls lead to. -/
def ELF32.Reachable (e : ELF32) : Prop := ∃ ops, e = build ops

end RiscvAssembler
