import RiscvAssembler.Dis
import RiscvAssembler.Layout
import RiscvAssembler.Lib.Runs

/-!
# The dumper reads the assembler's files

`tools/dis.cc` was written without the code of `elf.cc` at hand; on the file of every reachable object
it takes no read, index or name outside what was written.

* `loadSections_file`, `loadShstrtab_file`, `findText_file`: what each part of the dumper gets.
* `textLines_flatMap`: bytes of whole words are printed a word a line.
* `dumps`: the dumper's run on the file, to its end.
-/

namespace RiscvAssembler

open Bytes Gabi

namespace Dis

/-! ## Reads and lines -/

/-- A read of bytes that are there, into a buffer of their number. -/
theorem readInto_of_slice {file : IStream} {n : ℕ} {bs : List Byte} (hfail : file.fail = false)
    (h : slice file.bytes file.pos n = some bs) :
    readInto file n n = .ok ({ file with pos := file.pos + n }, bs) := by
  have hlen : bs.length = n := by
    unfold slice at h
    split_ifs at h
    cases h
    rw [List.length_take, List.length_drop]
    omega
  simp only [readInto, IStream.read_of_slice hfail h, hlen, le_refl, if_true, Nat.sub_self,
    List.replicate_zero, List.append_nil]

/-- Bytes of whole words are printed a word a line. -/
theorem textLines_flatMap {α : Type} (f : α → List Byte) (hf : ∀ x, (f x).length = 4) (addr : ℕ)
    (xs : List α) :
    textLines addr (xs.flatMap f) = xs.mapIdx fun i x => textLine (addr + 4 * i) (f x) := by
  have hlen : (xs.flatMap f).length = 4 * xs.length := by
    rw [List.length_flatMap, List.map_congr_left fun x _ => hf x, List.map_const',
      List.sum_replicate_nat, Nat.mul_comm]
  apply List.ext_getElem
  · rw [textLines, List.length_map, List.length_range, List.length_mapIdx, hlen]
    omega
  · intro i hi hi'
    rw [List.length_mapIdx] at hi'
    have hslice := slice_flatMap f hf [] xs hi'
    rw [List.nil_append, List.length_nil, zero_add] at hslice
    unfold slice at hslice
    split_ifs at hslice
    simp only [textLines, List.getElem_map, List.getElem_range, List.getElem_mapIdx]
    rw [Nat.mul_comm 4 i, Option.some.inj hslice]

/-- The line of a section whose name is terminated. -/
theorem sectionLine_ok {sections shstrtab : List Byte} {i : ℕ}
    (h : (0 : Byte) ∈ name shstrtab (sectionsAt sections i)) :
    ∃ line, sectionLine sections shstrtab i = .ok line := by
  have hprinted : printed (name shstrtab (sectionsAt sections i)) = .ok _ :=
    if_pos (List.contains_iff_mem.mpr h)
  simp only [sectionLine, hprinted, bind, Except.bind, pure, Except.pure, Except.ok.injEq,
    exists_eq']

end Dis

namespace ELF32

open Dis

variable {e : ELF32}

/-! ## The tables of a file -/

/-- The slice of the file at one of its parts. -/
theorem slice_file (h : Shaped e) (i : ℕ) (hi : i < e.parts.length) {off len : ℕ}
    (hoff : ((e.parts.take i).map List.length).sum = off) (hlen : e.parts[i].length = len) :
    slice e.file off len = some e.parts[i] := by
  subst hoff hlen
  rw [file_eq h]
  exact slice_flatten e.parts hi

/-- The section headers that the dumper loads. -/
theorem loadSections_file (h : Shaped e) (hlen : e.file.length < 2 ^ 32) (pos : ℕ) :
    ∃ pos', loadSections ⟨e.file, pos, false⟩ e.view.ehdr =
      .ok (⟨e.file, pos', false⟩, e.tableBytes) := by
  have hslice : slice e.file e.tableOffset (6 * sizeofShdr) = some e.tableBytes := by
    refine slice_file h 6 (by simp [parts]) ?_ e.length_tableBytes
    simp [parts, length_textBytes, length_symtabBytes, tableOffset, symtabOffset, shstrtabOffset,
      strtabOffset, dataOffset, add_assoc]
  have hshoff : e.view.ehdr.shoff = e.tableOffset := shoff_toNat h hlen
  have hseek : IStream.seekg ⟨e.file, pos, false⟩ e.view.ehdr.shoff =
      ⟨e.file, e.tableOffset, false⟩ := by
    rw [IStream.seekg, if_neg (by simp), hshoff]
  refine ⟨e.tableOffset + 6 * sizeofShdr, ?_⟩
  rw [loadSections, hseek]
  have hsize : e.view.ehdr.shentsize * e.view.ehdr.shnum = 6 * sizeofShdr := rfl
  have hsize' : sizeofShdr * e.view.ehdr.shnum = 6 * sizeofShdr := rfl
  rw [hsize, hsize', if_neg (by decide)]
  exact readInto_of_slice rfl hslice

/-- An entry of the section headers that the dumper loads. -/
theorem sectionsAt_file (e : ELF32) {i : ℕ} (hi : i < e.finalShdrs.length) :
    sectionsAt e.tableBytes i = e.finalShdrs[i].view := by
  have hslice := slice_flatMap (fun sh => Elf32Shdr.serialize sh .le) (w := sizeofShdr)
    (fun sh => Elf32Shdr.length_serialize sh .le) [] e.finalShdrs (i := i) hi
  rw [List.nil_append, List.length_nil, zero_add] at hslice
  rw [sectionsAt, Nat.mul_comm]
  refine shdrAt_of_readShdr ?_
  have hsize : (40 : ℕ) = sizeofShdr := rfl
  rw [hsize, tableBytes, hslice, Option.bind_some, readShdr_serialize]

/-- The section name table that the dumper loads. -/
theorem loadShstrtab_file (h : Shaped e) (hlen : e.file.length < 2 ^ 32) (pos : ℕ) :
    ∃ pos', loadShstrtab ⟨e.file, pos, false⟩ e.view.ehdr e.tableBytes =
      .ok (⟨e.file, pos', false⟩, init.shstrtab.data) := by
  have hbytes : slice e.file e.view.shstrtab.offset e.view.shstrtab.size = some init.shstrtab.data :=
    h.shstrtab ▸ (sectionBytes_view h hlen).2.2.2.1
  have hheader : sectionsAt e.tableBytes e.view.ehdr.shstrndx = e.view.shstrtab :=
    sectionsAt_file e (i := 2) (by simp [finalShdrs])
  have hindex : e.view.ehdr.shstrndx < e.view.ehdr.shnum := (by decide : (2 : ℕ) < 6)
  refine ⟨e.view.shstrtab.offset + e.view.shstrtab.size, ?_⟩
  rw [loadShstrtab, if_pos hindex, hheader]
  exact readInto_of_slice rfl hbytes

/-- The offset of the name of section `i`. -/
def nameOffset (i : ℕ) : ℕ := [0, 11, 1, 19, 27, 33].getD i 0

/-- The name that the dumper sees of a header of the file. -/
theorem name_file (h : Shaped e) {i : ℕ} (hi : i < 6) :
    name init.shstrtab.data (sectionsAt e.tableBytes i) = init.shstrtab.data.drop (nameOffset i) := by
  have hlen : i < e.finalShdrs.length := hi
  have hshstrtab : init.shstrtab.header.shName = 1 := rfl
  have hcases : i = 0 ∨ i = 1 ∨ i = 2 ∨ i = 3 ∨ i = 4 ∨ i = 5 := by omega
  have hoff : (sectionsAt e.tableBytes i).name = nameOffset i := by
    rw [sectionsAt_file e hlen]
    simp only [finalShdrs, h.strtab, h.shstrtab, h.symtab, h.text, h.data]
    rcases hcases with rfl | rfl | rfl | rfl | rfl | rfl
    · rfl
    · rfl
    · exact congrArg BitVec.toNat hshstrtab
    · rfl
    · rfl
    · rfl
  have hin : ∀ i < 6, nameOffset i < init.shstrtab.data.length := by decide
  rw [name, hoff, if_pos (hin i hi)]

/-- The dumper's comparison of a name of the file with `.text`. -/
theorem strcmpEq_file (h : Shaped e) {i : ℕ} (hi : i < 6) :
    strcmpEq (name init.shstrtab.data (sectionsAt e.tableBytes i)) (str ".text") =
      .ok (decide (i = 4)) := by
  have hcases : i = 0 ∨ i = 1 ∨ i = 2 ∨ i = 3 ∨ i = 4 ∨ i = 5 := by omega
  rw [name_file h hi]
  rcases hcases with rfl | rfl | rfl | rfl | rfl | rfl <;> rfl

/-- The search finds the header of `.text`. -/
theorem findText_file (h : Shaped e) :
    findText e.tableBytes init.shstrtab.data (List.range e.view.ehdr.shnum) =
      .ok (some e.view.text) := by
  have htext : sectionsAt e.tableBytes 4 = e.view.text :=
    sectionsAt_file e (i := 4) (by simp [finalShdrs])
  have hrange : List.range e.view.ehdr.shnum = [0, 1, 2, 3, 4, 5] := rfl
  rw [hrange, ← htext]
  simp only [findText, strcmpEq_file h (by decide : 0 < 6), strcmpEq_file h (by decide : 1 < 6),
    strcmpEq_file h (by decide : 2 < 6), strcmpEq_file h (by decide : 3 < 6),
    strcmpEq_file h (by decide : 4 < 6)]
  rfl

/-- **The search of the dumper**, on the file, wherever the stream is. -/
theorem textHeader_file (h : Shaped e) (hlen : e.file.length < 2 ^ 32) (pos : ℕ) :
    ∃ pos', textHeader ⟨e.file, pos, false⟩ e.view.ehdr =
      .ok (⟨e.file, pos', false⟩, some e.view.text) := by
  obtain ⟨pos₁, hsections⟩ := loadSections_file h hlen pos
  obtain ⟨pos₂, hnames⟩ := loadShstrtab_file h hlen pos₁
  refine ⟨pos₂, ?_⟩
  simp only [textHeader, hsections, hnames, findText_file h, bind, Except.bind, pure, Except.pure]

/-! ## The run -/

/-- The lines for the section headers of the file. -/
theorem printSectionHeaders_file (h : Shaped e) (hlen : e.file.length < 2 ^ 32) (pos : ℕ)
    (out err : Str) :
    ∃ pos', ∃ lines : List Str, lines.length = 6 ∧
      printSectionHeaders ⟨⟨e.file, pos, false⟩, out, err⟩ e.view.ehdr =
        .ok ⟨⟨e.file, pos', false⟩,
          out ++ sectionsTitle ++ lines.flatten ++ str "===============================\n", err⟩ := by
  obtain ⟨pos₁, hsections⟩ := loadSections_file h hlen pos
  obtain ⟨pos₂, hnames⟩ := loadShstrtab_file h hlen pos₁
  have hterminated : ∀ i < 6, (0 : Byte) ∈ init.shstrtab.data.drop (nameOffset i) := by decide
  have hline : ∀ i ∈ List.range e.view.ehdr.shnum,
      ∃ line, sectionLine e.tableBytes init.shstrtab.data i = .ok line := by
    intro i hi
    have hlt : i < 6 := List.mem_range.mp hi
    exact sectionLine_ok (name_file h hlt ▸ hterminated i hlt)
  obtain ⟨lines, hcount, hlines⟩ := Runs.exists_mapM_ok hline
  refine ⟨pos₂, lines, hcount.trans List.length_range, ?_⟩
  simp only [printSectionHeaders, hsections, hnames, hlines, bind, Except.bind, pure, Except.pure,
    Bool.false_eq_true, if_false]

/-- The lines for the words of the file. -/
theorem printTextSection_file (h : Shaped e) (hlen : e.file.length < 2 ^ 32) (pos : ℕ)
    (out err : Str) :
    ∃ pos', printTextSection ⟨⟨e.file, pos, false⟩, out, err⟩ e.view.ehdr =
      .ok ⟨⟨e.file, pos', false⟩, out ++ textListing 0
        (e.secText.data.mapIdx fun i w => textLine (4 * i) (leBytes 4 w.toNat)), err⟩ := by
  obtain ⟨pos₁, htext⟩ := textHeader_file h hlen pos
  have hread : readInto ⟨e.file, e.view.text.offset, false⟩ e.view.text.size
      e.view.text.size = .ok (⟨e.file, e.view.text.offset + e.view.text.size, false⟩, e.secText.bytes .le) :=
    readInto_of_slice rfl (sectionBytes_view h hlen).1
  have haddr : e.view.text.addr = 0 := congrArg (fun hd => hd.shAddr.toNat) h.text
  have hlines := textLines_flatMap (fun w : Word => write w .le) (fun w => length_write w .le) 0
    e.secText.data
  refine ⟨e.view.text.offset + e.view.text.size, ?_⟩
  simp only [printTextSection, htext, bind, Except.bind, IStream.seekg, Bool.false_eq_true, if_false]
  rw [hread]
  simp only [pure, Except.pure, haddr, Text.bytes, textListing, hlines, zero_add]
  simp only [write_le]

/-- On the file of the object, whose headers are `v`, the dumper finds the header of `.text`, passes all
of its checks, does nothing undefined, and prints the words in order, four little-endian bytes a line.
-/
structure Dumps (e : ELF32) (path : Str) (v : View) : Prop where
  finds : ∀ pos, ∃ pos', textHeader ⟨e.file, pos, false⟩ v.ehdr =
    .ok (⟨e.file, pos', false⟩, some v.text)
  prints : ∃ lines : List Str, lines.length = 6 ∧ Dis.main path (some e.file) = .ok
    { status := 0
      out := printElfHeader e.elfHeader.eIdent.toList v.ehdr ++ sectionsTitle ++ lines.flatten ++
        str "===============================\n" ++
        textListing 0 (e.secText.data.mapIdx fun i w => textLine (4 * i) (leBytes 4 w.toNat))
      err := [] }

/-- A shaped object's file is dumped. -/
theorem Shaped.dumped (h : Shaped e) (hlen : e.file.length < 2 ^ 32) (path : Str) :
    Dumps e path e.view := by
  have hslice : slice e.file 0 sizeofEhdr = some e.finalEhdr.serialize :=
    slice_file h 0 (by simp [parts]) rfl (Elf32Ehdr.length_serialize _)
  have hread : (IStream.ofBytes e.file).read sizeofEhdr =
      (⟨e.file, sizeofEhdr, false⟩, e.finalEhdr.serialize) := by
    rw [IStream.read_of_slice (s := IStream.ofBytes e.file) rfl hslice]
    simp only [IStream.ofBytes, zero_add]
  have hident : e.finalEhdr.serialize.take 16 = init.elfHeader.eIdent.toList := by
    rw [Elf32Ehdr.serialize_eq]
    exact List.take_left' rfl
  have hehdr : ehdrAt e.finalEhdr.serialize = e.view.ehdr := by
    refine ehdrAt_of_readEhdr (Nat.le_of_eq (Elf32Ehdr.length_serialize _).symm) ?_
    have hback := readEhdr_serialize e.finalEhdr rfl []
    rwa [List.append_nil] at hback
  obtain ⟨pos₁, lines, hcount, hheaders⟩ := printSectionHeaders_file h hlen sizeofEhdr
    (printElfHeader init.elfHeader.eIdent.toList e.view.ehdr) []
  obtain ⟨pos₂, htext⟩ := printTextSection_file h hlen pos₁
    (printElfHeader init.elfHeader.eIdent.toList e.view.ehdr ++ sectionsTitle ++ lines.flatten ++
      str "===============================\n") []
  refine ⟨textHeader_file h hlen, lines, hcount, ?_⟩
  have hmagic : init.elfHeader.eIdent.toList.take 4 = [0x7f, 0x45, 0x4c, 0x46] := by decide
  have hclass : init.elfHeader.eIdent.toList[4]? = some 1 := by decide
  simp only [Dis.main, hread, hident, hehdr, h.elfHeader, hmagic, hclass, Bool.false_eq_true,
    if_false, ne_eq, not_true_eq_false]
  simp only [hheaders, htext, bind, Except.bind, pure, Except.pure]

/-- **The dumper undoes the writer**, on the file of every reachable object below `2 ^ 32` bytes. -/
theorem dumps (ops : List Op) (path : Str) (hlen : (build ops).file.length < 2 ^ 32) :
    ∃ v, Recovered (build ops).file (build ops) v ∧ Dumps (build ops) path v :=
  ⟨_, (shaped_of_reachable ⟨ops, rfl⟩).reads_back hlen,
    (shaped_of_reachable ⟨ops, rfl⟩).dumped hlen path⟩

theorem dumps_oneOfEach :
    (build oneOfEach).file.length < 2 ^ 32 ∧
      ∃ v, Recovered (build oneOfEach).file (build oneOfEach) v ∧
        Dumps (build oneOfEach) (str "out.o") v :=
  ⟨length_file_oneOfEach, dumps oneOfEach (str "out.o") length_file_oneOfEach⟩

end ELF32

end RiscvAssembler
