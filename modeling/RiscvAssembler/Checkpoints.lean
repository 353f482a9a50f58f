import Mathlib.Data.List.ReduceOption
import RiscvAssembler.LabelMaps
import RiscvAssembler.Layout

/-!
# Writing the file more than once

`serialize` is not `const`: it leaves offsets and sizes in the headers of the object. They are all
overwritten by the next `serialize`, and no other function looks at them.

* `unsaved`: the object as if it had not been serialized.
* `unsaved_apply`, `file_unsaved`: neither a call nor `serialize` depends on what was left.
* `file_of_saving`: the files that are written between the calls, and the last one, are those of the calls
  alone.
-/

namespace RiscvAssembler

open Bytes

namespace ELF32

/-- The object without what `serialize` leaves in its headers. -/
def unsaved (e : ELF32) : ELF32 :=
  { e with
    elfHeader := { e.elfHeader with eShoff := 0, eShnum := 0, eShstrndx := 0 }
    strtab := { e.strtab with header := { e.strtab.header with shOffset := 0 } }
    shstrtab := { e.shstrtab with header := { e.shstrtab.header with shOffset := 0 } }
    symtab := { e.symtab with header := { e.symtab.header with shOffset := 0 } }
    secText := { e.secText with header := { e.secText.header with shOffset := 0 } }
    secData := { e.secData with header := { e.secData.header with shOffset := 0 } } }

variable {e : ELF32}

theorem unsaved_initLabel (label : Str) (isGlobal : Bool) (sectionName : Str) :
    (e.initLabel label isGlobal sectionName).unsaved =
      e.unsaved.initLabel label isGlobal sectionName := by
  have hexists : e.unsaved.labelExists label = e.labelExists label := rfl
  unfold initLabel
  rw [hexists]
  split_ifs <;> rfl

theorem unsaved_addProgramData (varName value section_ : Str) :
    (e.addProgramData varName value section_).unsaved =
      e.unsaved.addProgramData varName value section_ := by
  have hsame : e.unsaved.sectionToIdx = e.sectionToIdx := rfl
  unfold addProgramData storeRegularString sectionToIdxAt
  cases hlookup : e.sectionToIdx.lookup section_ with
  | some idx =>
      simp only [hsame, hlookup]
      rfl
  | none =>
      simp only [hsame, hlookup]
      rfl

theorem unsaved_resolveInstruction (entry : UnresolvedInst32) :
    (e.resolveInstruction entry).unsaved = e.unsaved.resolveInstruction entry := by
  have hlookup : (e.labelToAddrAt entry.hash).1.unsaved = (e.unsaved.labelToAddrAt entry.hash).1 ∧
      (e.unsaved.labelToAddrAt entry.hash).2 = (e.labelToAddrAt entry.hash).2 := by
    have hsame : e.unsaved.labelToAddr = e.labelToAddr := rfl
    unfold labelToAddrAt
    cases hlookup : e.labelToAddr.lookup entry.hash with
    | some addr =>
        simp only [hsame, hlookup, and_self]
    | none =>
        simp only [hsame, hlookup, and_true]
        rfl
  obtain ⟨hobject, haddr⟩ := hlookup
  have hentry : e.unsaved.secText.getEntry entry.insnNumber.toNat =
      e.secText.getEntry entry.insnNumber.toNat := rfl
  unfold resolveInstruction
  simp only [hentry, haddr, ← hobject]
  cases patchedInsn entry.insnType ((e.secText.getEntry entry.insnNumber.toNat).getD 0)
      (e.labelToAddrAt entry.hash).2 entry.pcInsnNumber with
  | none => rfl
  | some insn =>
      generalize (e.labelToAddrAt entry.hash).1 = e'
      have hlength : e'.unsaved.secText.data.length = e'.secText.data.length := rfl
      simp only [Text.updateEntry, hlength]
      split_ifs <;> rfl

/-- **No call looks at what was left.** -/
theorem unsaved_apply (op : Op) : (op.apply e).unsaved = op.apply e.unsaved := by
  cases op with
  | initLabel label isGlobal sectionName => exact unsaved_initLabel label isGlobal sectionName
  | updateLabelVisibility label isGlobal =>
      simp only [Op.apply, updateLabelVisibility_eq]
      exact unsaved_initLabel label isGlobal (str ".text")
  | resolveLabel label =>
      have hlookup : e.unsaved.resolvedLabels = e.resolvedLabels := rfl
      simp only [Op.apply, resolveLabel, hlookup]
      split <;> rfl
  | addSymbol symText sectionIdx offsetIdx symtabIdx isResolved isLabel => rfl
  | addToText instr => rfl
  | addProgramData varName value section_ => exact unsaved_addProgramData varName value section_
  | addToUnresolvedInsns insnNumber insnType hash pcInsnNumber => rfl
  | resolveUnresolvedInstructions =>
      show (e.unresolvedInstructions.foldl resolveInstruction e).unsaved =
        e.unresolvedInstructions.foldl resolveInstruction e.unsaved
      generalize e.unresolvedInstructions = entries
      induction entries generalizing e with
      | nil => rfl
      | cons entry entries ih => rw [List.foldl_cons, List.foldl_cons, ih, unsaved_resolveInstruction]

/-- What an object needs so that `serialize` goes over its headers as the constructor arranged them. -/
structure Arranged (e : ELF32) : Prop where
  sections : e.sections = [.text, .data]
  sectionHeaders : e.sectionHeaders = [.first, .strtab, .shstrtab, .symtab, .text, .data]
  headerShstrtab : e.headerShstrtab = .shstrtab
  shstrtab : e.shstrtab.header.shType = shtStrtab
  symtab : e.symtab.data ≠ []

/-- The object that `serialize` leaves. -/
def saved (e : ELF32) : ELF32 :=
  { e with
    elfHeader :=
      { e.elfHeader with
        eShoff := BitVec.ofNat 32 e.tableOffset
        eShnum := 6
        eShstrndx := 2 }
    strtab :=
      { e.strtab with
        header :=
          { e.strtab.header with
            shOffset := BitVec.ofNat 32 e.strtabOffset
            shSize := BitVec.ofNat 32 e.strtab.sizeInBytes } }
    shstrtab :=
      { e.shstrtab with
        header :=
          { e.shstrtab.header with
            shOffset := BitVec.ofNat 32 e.shstrtabOffset
            shSize := BitVec.ofNat 32 e.shstrtab.sizeInBytes } }
    symtab :=
      { e.symtab with
        header :=
          { e.symtab.header with
            shOffset := BitVec.ofNat 32 e.symtabOffset
            shSize := BitVec.ofNat 32 e.symtab.sizeInBytes } }
    secText :=
      { e.secText with header := { e.secText.header with shOffset := BitVec.ofNat 32 sizeofEhdr } }
    secData :=
      { e.secData with header := { e.secData.header with shOffset := BitVec.ofNat 32 e.dataOffset } } }

/-- **What `serialize` leaves and what it writes.** -/
theorem serialize_eq (h : Arranged e) :
    (e.serialize OStream.empty).1 = e.saved ∧
      e.file = e.saved.elfHeader.serialize ++ (e.secText.bytes .le ++ (e.secData.data ++
        (e.strtab.data ++ (e.shstrtab.data ++ (e.symtab.bytes .le ++
          [e.firstEntry, e.saved.strtab.header, e.saved.shstrtab.header, e.saved.symtab.header,
            e.saved.secText.header, e.saved.secData.header].flatMap fun h => h.serialize .le))))) := by
  unfold file serialize
  rw [OStream.empty_eq, OStream.write_atEnd, List.nil_append]
  simp only [h.sections, List.foldl_cons, List.foldl_nil, serializeSection, serialize_text, Data.serialize,
    StringTable.serialize, OStream.seekEnd_atEnd, OStream.write_atEnd, OStream.tellp_atEnd,
    serialize_symtab _ h.symtab]
  rw [h.sectionHeaders, serializeHeaders]
  case hp => exact h.headerShstrtab
  case ht => exact h.shstrtab
  simp only [List.append_assoc]
  rw [OStream.write_seekBeg _ _ _ (by simp only [Elf32Ehdr.length_serialize])]
  simp only [saved, List.length_append, Elf32Ehdr.length_serialize, length_textBytes, length_symtabBytes,
    tableOffset, symtabOffset, shstrtabOffset, strtabOffset, dataOffset, Nat.add_assoc, h.sectionHeaders,
    h.sections]
  exact ⟨rfl, rfl⟩

theorem arranged_of_unsaved (h : Shaped e.unsaved) : Arranged e where
  sections := h.sections
  sectionHeaders := h.sectionHeaders
  headerShstrtab := h.headerShstrtab
  shstrtab := congrArg (fun t => t.header.shType) h.shstrtab
  symtab := h.symtab_ne

/-- **`serialize` does not look at what was left.** -/
theorem file_unsaved (h : Shaped e.unsaved) : e.unsaved.file = e.file := by
  have harranged := arranged_of_unsaved h
  have harranged' : Arranged e.unsaved := ⟨harranged.1, harranged.2, harranged.3, harranged.4, harranged.5⟩
  have hsaved : e.unsaved.saved = e.saved := rfl
  have hparts : e.unsaved.secText.bytes .le = e.secText.bytes .le ∧
      e.unsaved.secData.data = e.secData.data ∧ e.unsaved.strtab.data = e.strtab.data ∧
      e.unsaved.shstrtab.data = e.shstrtab.data ∧
      e.unsaved.symtab.bytes .le = e.symtab.bytes .le ∧ e.unsaved.firstEntry = e.firstEntry :=
    ⟨rfl, rfl, rfl, rfl, rfl, rfl⟩
  obtain ⟨htext, hdata, hstrtab, hshstrtab, hsymtab, hfirst⟩ := hparts
  rw [(serialize_eq harranged).2, (serialize_eq harranged').2, hsaved, htext, hdata, hstrtab, hshstrtab,
    hsymtab, hfirst]

/-- `serialize` leaves nothing but offsets: the sizes are there before. -/
theorem unsaved_serialize (h : Shaped e.unsaved) :
    (e.serialize OStream.empty).1.unsaved = e.unsaved := by
  have hstrtab : BitVec.ofNat 32 e.strtab.sizeInBytes = e.strtab.header.shSize :=
    (congrArg (fun hd => hd.shSize) h.strtab).symm
  have hshstrtab : BitVec.ofNat 32 e.shstrtab.sizeInBytes = e.shstrtab.header.shSize := by
    have hdata : e.shstrtab.data = init.shstrtab.data := congrArg (fun t => t.data) h.shstrtab
    have hsize : e.shstrtab.header.shSize = init.shstrtab.header.shSize :=
      congrArg (fun t => t.header.shSize) h.shstrtab
    rw [hsize, StringTable.sizeInBytes, hdata]
    rfl
  have hsymtab : BitVec.ofNat 32 e.symtab.sizeInBytes = e.symtab.header.shSize :=
    (congrArg (fun hd => hd.shSize) h.symtab).symm
  rw [(serialize_eq (arranged_of_unsaved h)).1, saved, hstrtab, hshstrtab, hsymtab]
  rfl

end ELF32

/-! ## Calls and files -/

/-- A call, or the writing of a file to a fresh stream. -/
def ELF32.useOnce (e : ELF32) : Option Op → ELF32
  | some op => op.apply e
  | none => (e.serialize OStream.empty).1

/-- The object after calls between which files were written. -/
def buildSaving (uses : List (Option Op)) : ELF32 := uses.foldl ELF32.useOnce ELF32.init

theorem unsaved_buildSaving (uses : List (Option Op)) :
    (buildSaving uses).unsaved = build uses.reduceOption := by
  induction uses using List.reverseRecOn with
  | nil => rfl
  | append_singleton uses use ih =>
      have hshaped : (buildSaving uses).unsaved.Shaped := by
        rw [ih]
        exact ELF32.shaped_of_reachable ⟨_, rfl⟩
      rw [buildSaving, List.foldl_append, List.reduceOption_append]
      cases use with
      | some op =>
          show (op.apply (buildSaving uses)).unsaved = build (uses.reduceOption ++ [op])
          rw [ELF32.unsaved_apply, ih, ELF32.build_concat]
      | none =>
          show ((buildSaving uses).serialize OStream.empty).1.unsaved = build (uses.reduceOption ++ [])
          rw [ELF32.unsaved_serialize hshaped, ih, List.append_nil]

/-- **Writing a file changes no file**: whatever has been written before, and wherever between the calls,
the file is that of the calls alone. -/
theorem file_of_saving (uses : List (Option Op)) :
    (buildSaving uses).file = (build uses.reduceOption).file := by
  have hunsaved := unsaved_buildSaving uses
  have hshaped : (buildSaving uses).unsaved.Shaped := by
    rw [hunsaved]
    exact ELF32.shaped_of_reachable ⟨_, rfl⟩
  rw [← hunsaved, ELF32.file_unsaved hshaped]

end RiscvAssembler
