import RiscvAssembler.ReadBack

/-!
# Which files the dumper can read

The dumper takes sizes, offsets and indices from the file. Its only checks on them are that of `sh_name`
against the size of the name table, and that of the stream behind the first read.

* `readInto_of_room`, `loadSections_of_fit`, `loadShstrtab_of_index`, `ok_sectionLine_iff`: when each
  part of a run stays within its buffer, and what it gets there.
* `ok_listings_iff`: the same of the two listings, one behind the other.
* `ok_main_iff`: which accepted files the dumper reads without leaving a buffer, by what their headers
  say.
* `ELF32.Shaped.readable`: the files of the assembler are among them.
-/

namespace RiscvAssembler

open Bytes Gabi Runs

namespace Dis

/-! ## Reads -/

/-- The computation has a value. -/
def Ok {α : Type} (x : Except Fault α) : Prop := ∃ a, x = .ok a

/-- A buffer of the given size, after the bytes have been stored at its start. -/
def filled (size : ℕ) (got : List Byte) : List Byte := got ++ List.replicate (size - got.length) 0

/-- The bytes that a read of `len` bytes at an offset gets. -/
def gotten (bytes : List Byte) (off len : ℕ) : List Byte := (bytes.drop off).take len

theorem length_gotten (bytes : List Byte) (off len : ℕ) :
    (gotten bytes off len).length = min len (bytes.length - off) := by
  rw [gotten, List.length_take, List.length_drop]

section

variable {file : IStream} {size len : ℕ}

/-- A read from a stream that has failed leaves the buffer as it was. -/
theorem readInto_of_fail (h : file.fail = true) :
    readInto file size len = .ok (file, filled size []) := by
  simp [readInto, IStream.read, h, filled]

/-- A read that its buffer has room for. -/
theorem readInto_of_room (h : file.fail = false)
    (hroom : min len (file.bytes.length - file.pos) ≤ size) :
    ∃ pos, readInto file size len =
      .ok (⟨file.bytes, pos, decide (file.bytes.length - file.pos < len)⟩,
        filled size (gotten file.bytes file.pos len)) := by
  have hlength := length_gotten file.bytes file.pos len
  unfold gotten at hlength
  refine ⟨file.pos + min len (file.bytes.length - file.pos), ?_⟩
  have hfail : decide (min len (file.bytes.length - file.pos) < len) =
      decide (file.bytes.length - file.pos < len) := by
    rw [decide_eq_decide]
    omega
  simp only [readInto, IStream.read, h, Bool.false_eq_true, if_false, hlength, if_pos hroom, hfail]
  simp only [filled, gotten, hlength]

/-- A read that does not fit is an overrun. -/
theorem room_of_readInto (h : file.fail = false) (hok : Ok (readInto file size len)) :
    min len (file.bytes.length - file.pos) ≤ size := by
  have hlength := length_gotten file.bytes file.pos len
  unfold gotten at hlength
  obtain ⟨r, hr⟩ := hok
  by_contra hroom
  simp only [readInto, IStream.read, h, Bool.false_eq_true, if_false, hlength, if_neg hroom] at hr
  cases hr

end

/-! ## The tables -/

/-- The bytes of the section headers, as the dumper counts them. -/
def tableLength (hdr : Ehdr) : ℕ := hdr.shentsize * hdr.shnum

/-- The vector of section headers, loaded from the file. -/
def loadedHeaders (bytes : List Byte) (hdr : Ehdr) : List Byte :=
  filled (sizeofShdr * hdr.shnum) (gotten bytes hdr.shoff (tableLength hdr))

/-- The section name table, loaded from the file. -/
def loadedNames (bytes : List Byte) (sh : Shdr) : List Byte :=
  filled sh.size (gotten bytes sh.offset sh.size)

/-- The headers fit their vector, and their number of bytes an `int`. -/
def HeadersFit (bytes : List Byte) (hdr : Ehdr) : Prop :=
  tableLength hdr < 2 ^ 31 ∧
    min (tableLength hdr) (bytes.length - hdr.shoff) ≤ sizeofShdr * hdr.shnum

/-- The file has all of its section headers. -/
def HeadersThere (bytes : List Byte) (hdr : Ehdr) : Prop :=
  tableLength hdr ≤ bytes.length - hdr.shoff

variable {file : IStream} {hdr : Ehdr}

theorem seekg_of_good (h : file.fail = false) (off : ℕ) :
    file.seekg off = ⟨file.bytes, off, false⟩ := by
  rw [IStream.seekg, if_neg (by simp [h]), ← h]

theorem loadSections_of_fail (h : file.fail = true) (hlen : tableLength hdr < 2 ^ 31) :
    loadSections file hdr = .ok (file, filled (sizeofShdr * hdr.shnum) []) := by
  have hseek : file.seekg hdr.shoff = file := by rw [IStream.seekg, if_pos h]
  have hnot : ¬ 2 ^ 31 ≤ hdr.shentsize * hdr.shnum := Nat.not_le.mpr hlen
  rw [loadSections, if_neg hnot, hseek]
  exact readInto_of_fail h

theorem loadSections_of_fit (h : file.fail = false) (hfit : HeadersFit file.bytes hdr) :
    ∃ pos, loadSections file hdr =
      .ok (⟨file.bytes, pos, decide (file.bytes.length - hdr.shoff < tableLength hdr)⟩,
        loadedHeaders file.bytes hdr) := by
  have hnot : ¬ 2 ^ 31 ≤ hdr.shentsize * hdr.shnum := Nat.not_le.mpr hfit.1
  rw [loadSections, if_neg hnot, seekg_of_good h]
  exact readInto_of_room rfl hfit.2

theorem loadSections_of_there (h : file.fail = false) (hthere : HeadersThere file.bytes hdr)
    (hfit : HeadersFit file.bytes hdr) :
    ∃ pos, loadSections file hdr =
      .ok (⟨file.bytes, pos, false⟩, loadedHeaders file.bytes hdr) := by
  obtain ⟨pos, hload⟩ := loadSections_of_fit h hfit
  rw [decide_eq_false (Nat.not_lt.mpr hthere)] at hload
  exact ⟨pos, hload⟩

theorem length_of_loadSections (hok : Ok (loadSections file hdr)) : tableLength hdr < 2 ^ 31 := by
  obtain ⟨r, hr⟩ := hok
  unfold loadSections at hr
  split_ifs at hr with hover
  exact Nat.not_le.mp hover

theorem fit_of_loadSections (h : file.fail = false) (hok : Ok (loadSections file hdr)) :
    HeadersFit file.bytes hdr := by
  have hlen := length_of_loadSections hok
  have hnot : ¬ 2 ^ 31 ≤ hdr.shentsize * hdr.shnum := Nat.not_le.mpr hlen
  rw [loadSections, if_neg hnot, seekg_of_good h] at hok
  exact ⟨hlen, room_of_readInto rfl hok⟩

/-- A read of as many bytes as the buffer has stays in it. -/
theorem ok_readInto_self (file : IStream) (n : ℕ) : Ok (readInto file n n) := by
  cases h : file.fail with
  | true => exact ⟨_, readInto_of_fail h⟩
  | false =>
      have hroom : min n (file.bytes.length - file.pos) ≤ n := Nat.min_le_left _ _
      obtain ⟨pos, hpos⟩ := readInto_of_room h hroom
      exact ⟨_, hpos⟩

theorem loadShstrtab_of_fail {sections : List Byte} (h : file.fail = true)
    (hindex : hdr.shstrndx < hdr.shnum) :
    loadShstrtab file hdr sections =
      .ok (file, filled (sectionsAt sections hdr.shstrndx).size []) := by
  rw [loadShstrtab, if_pos hindex]
  simp only [IStream.seekg, h, if_true]
  exact readInto_of_fail h

theorem loadShstrtab_of_index {sections : List Byte} (h : file.fail = false)
    (hindex : hdr.shstrndx < hdr.shnum) :
    ∃ file', file'.bytes = file.bytes ∧ loadShstrtab file hdr sections =
      .ok (file', loadedNames file.bytes (sectionsAt sections hdr.shstrndx)) := by
  rw [loadShstrtab, if_pos hindex]
  simp only [seekg_of_good h]
  obtain ⟨pos, hpos⟩ := @readInto_of_room
    ⟨file.bytes, (sectionsAt sections hdr.shstrndx).offset, false⟩ _ _ rfl (Nat.min_le_left _ _)
  exact ⟨⟨file.bytes, pos, _⟩, rfl, hpos⟩

theorem index_of_loadShstrtab {sections : List Byte} (hok : Ok (loadShstrtab file hdr sections)) :
    hdr.shstrndx < hdr.shnum := by
  obtain ⟨r, hr⟩ := hok
  unfold loadShstrtab at hr
  split_ifs at hr with hindex
  exact hindex

/-! ## Names -/

/-- The name of a section ends inside the name table, if it starts there. -/
def NameTerminated (shstrtab : List Byte) (sh : Shdr) : Prop :=
  sh.name < shstrtab.length → (0 : Byte) ∈ shstrtab.drop sh.name

theorem zero_mem_name_iff {shstrtab : List Byte} {sh : Shdr} :
    (0 : Byte) ∈ name shstrtab sh ↔ NameTerminated shstrtab sh := by
  unfold name NameTerminated
  split_ifs with hlt
  · exact (imp_iff_right hlt).symm
  · exact iff_of_true (by decide) fun h => absurd h hlt

theorem ok_sectionLine_iff {sections shstrtab : List Byte} {i : ℕ} :
    Ok (sectionLine sections shstrtab i) ↔ NameTerminated shstrtab (sectionsAt sections i) := by
  rw [← zero_mem_name_iff]
  refine ⟨fun hok => ?_, sectionLine_ok⟩
  obtain ⟨line, hline⟩ := hok
  obtain ⟨text, htext, -⟩ := bind_eq_ok.mp hline
  unfold printed at htext
  split_ifs at htext with hzero
  exact List.contains_iff_mem.mp hzero

/-- The comparison of a terminated name with a literal stays in the name. -/
theorem ok_strcmpEq {mem s : List Byte} (hmem : (0 : Byte) ∈ mem) (hs : (0 : Byte) ∉ s) :
    Ok (strcmpEq mem s) := by
  induction mem generalizing s with
  | nil => cases hmem
  | cons c mem ih =>
      cases s with
      | nil => exact ⟨_, rfl⟩
      | cons d s =>
          unfold strcmpEq
          split_ifs with hcd
          · -- the byte is not the terminator, which is then still to come
            rw [List.mem_cons, not_or] at hs
            have hc : (0 : Byte) ≠ c := fun h => hs.1 (h.trans hcd)
            exact ih (List.mem_of_ne_of_mem hc hmem) hs.2
          · exact ⟨_, rfl⟩

theorem ok_findText {sections shstrtab : List Byte} {is : List ℕ}
    (h : ∀ i ∈ is, NameTerminated shstrtab (sectionsAt sections i)) :
    Ok (findText sections shstrtab is) := by
  induction is with
  | nil => exact ⟨_, rfl⟩
  | cons i is ih =>
      obtain ⟨b, hb⟩ := ok_strcmpEq (s := str ".text")
        (zero_mem_name_iff.mpr (h i List.mem_cons_self)) (by decide)
      obtain ⟨r, hr⟩ := ih fun j hj => h j (List.mem_cons_of_mem _ hj)
      simp only [findText, hb, bind, Except.bind]
      cases b with
      | true => exact ⟨_, rfl⟩
      | false => exact ⟨r, hr⟩

theorem uintAt_zeros (n off k : ℕ) : uintAt (List.replicate n 0) off k = 0 := by
  have hzeros : ∀ n, ofLE (List.replicate n 0) = 0 := by
    intro n
    induction n with
    | zero => rfl
    | succ n ih => rw [List.replicate_succ, ofLE, ih]; rfl
  rw [uintAt, List.drop_replicate, List.take_replicate]
  exact hzeros _

/-- Headers that have not been read name nothing. -/
theorem nameTerminated_of_zeros (m n i : ℕ) :
    NameTerminated (filled (sectionsAt (filled n []) m).size []) (sectionsAt (filled n []) i) := by
  have hsize : (sectionsAt (filled n []) m).size = 0 := uintAt_zeros _ _ _
  intro hlt
  rw [hsize] at hlt
  exact absurd hlt (Nat.not_lt_zero _)

/-! ## The two listings -/

/-- Every name of the loaded headers ends inside the loaded name table. -/
def NamesTerminated (bytes : List Byte) (hdr : Ehdr) : Prop :=
  let headers := loadedHeaders bytes hdr
  ∀ i < hdr.shnum, NameTerminated (loadedNames bytes (sectionsAt headers hdr.shstrndx))
    (sectionsAt headers i)

instance (shstrtab : List Byte) (sh : Shdr) : Decidable (NameTerminated shstrtab sh) :=
  inferInstanceAs (Decidable (_ → _))

instance (bytes : List Byte) (hdr : Ehdr) : Decidable (NamesTerminated bytes hdr) :=
  inferInstanceAs (Decidable (∀ i < hdr.shnum, NameTerminated _ (sectionsAt _ i)))

instance (bytes : List Byte) (hdr : Ehdr) : Decidable (HeadersFit bytes hdr) :=
  inferInstanceAs (Decidable (_ ∧ _))

variable {s : Run}

/-- The section headers of a file that ends inside them are not printed. -/
theorem printSectionHeaders_of_short (h : s.file.fail = false)
    (hshort : ¬ HeadersThere s.file.bytes hdr) (hfit : HeadersFit s.file.bytes hdr) :
    ∃ t, printSectionHeaders s hdr = .ok t ∧ t.file.fail = true := by
  obtain ⟨pos, hload⟩ := loadSections_of_fit h hfit
  rw [decide_eq_true (Nat.not_le.mp hshort)] at hload
  refine ⟨{ s with
    file := ⟨s.file.bytes, pos, true⟩
    err := s.err ++ str "Failed to read section headers.\n" }, ?_, rfl⟩
  simp only [printSectionHeaders, hload, bind, Except.bind, if_true]
  rfl

/-- What is left to do when the section headers are there. -/
theorem printSectionHeaders_of_there (h : s.file.fail = false)
    (hthere : HeadersThere s.file.bytes hdr) (hfit : HeadersFit s.file.bytes hdr) :
    ∃ pos, printSectionHeaders s hdr =
      (loadShstrtab ⟨s.file.bytes, pos, false⟩ hdr (loadedHeaders s.file.bytes hdr)).bind fun r =>
        ((List.range hdr.shnum).mapM (sectionLine (loadedHeaders s.file.bytes hdr) r.2)).bind
          fun lines => .ok { s with
            file := r.1
            out := s.out ++ sectionsTitle ++ lines.flatten ++
              str "===============================\n" } := by
  obtain ⟨pos, hload⟩ := loadSections_of_there h hthere hfit
  refine ⟨pos, ?_⟩
  simp only [printSectionHeaders, hload, bind, Except.bind, Bool.false_eq_true, if_false]
  rfl

theorem ok_printSectionHeaders (h : s.file.fail = false) (hthere : HeadersThere s.file.bytes hdr)
    (hfit : HeadersFit s.file.bytes hdr) (hindex : hdr.shstrndx < hdr.shnum)
    (hnames : NamesTerminated s.file.bytes hdr) :
    ∃ t, printSectionHeaders s hdr = .ok t ∧ t.file.bytes = s.file.bytes := by
  obtain ⟨pos, heq⟩ := printSectionHeaders_of_there h hthere hfit
  obtain ⟨file', hbytes, hload⟩ := @loadShstrtab_of_index
    ⟨s.file.bytes, pos, false⟩ hdr (loadedHeaders s.file.bytes hdr) rfl hindex
  obtain ⟨lines, -, hlines⟩ := exists_mapM_ok fun i hi =>
    ok_sectionLine_iff.mpr (hnames i (List.mem_range.mp hi))
  rw [heq, hload]
  simp only [Except.bind, hlines]
  exact ⟨_, rfl, hbytes⟩

theorem fit_of_printSectionHeaders (h : s.file.fail = false) (hok : Ok (printSectionHeaders s hdr)) :
    HeadersFit s.file.bytes hdr := by
  obtain ⟨t, ht⟩ := hok
  obtain ⟨r, hr, -⟩ := bind_eq_ok.mp ht
  exact fit_of_loadSections h ⟨r, hr⟩

theorem names_of_printSectionHeaders (h : s.file.fail = false)
    (hthere : HeadersThere s.file.bytes hdr) (hok : Ok (printSectionHeaders s hdr)) :
    NamesTerminated s.file.bytes hdr := by
  obtain ⟨pos, heq⟩ := printSectionHeaders_of_there h hthere (fit_of_printSectionHeaders h hok)
  obtain ⟨t, ht⟩ := hok
  rw [heq] at ht
  obtain ⟨r, hr, ht⟩ := bind_eq_ok.mp ht
  obtain ⟨lines, hlines, -⟩ := bind_eq_ok.mp ht
  have hindex := index_of_loadShstrtab ⟨r, hr⟩
  obtain ⟨file', -, hload⟩ := @loadShstrtab_of_index
    ⟨s.file.bytes, pos, false⟩ hdr (loadedHeaders s.file.bytes hdr) rfl hindex
  cases hr.symm.trans hload
  intro i hi
  exact ok_sectionLine_iff.mp (ok_of_mapM hlines i (List.mem_range.mpr hi))

/-- The second listing stays in its buffers once its search has. -/
theorem ok_printTextSection (hok : Ok (textHeader s.file hdr)) : Ok (printTextSection s hdr) := by
  obtain ⟨⟨file, textSh⟩, hheader⟩ := hok
  simp only [printTextSection, hheader, bind, Except.bind]
  cases textSh with
  | none => exact ⟨_, rfl⟩
  | some sh =>
      obtain ⟨r, hr⟩ := ok_readInto_self (file.seekg sh.offset) sh.size
      simp only [hr]
      exact ⟨_, rfl⟩

/-- The search behind a failed read sees nothing but zeros. -/
theorem ok_textHeader_of_fail (h : file.fail = true) (hlen : tableLength hdr < 2 ^ 31)
    (hindex : hdr.shstrndx < hdr.shnum) : Ok (textHeader file hdr) := by
  have hload := loadSections_of_fail h hlen
  have hnames := @loadShstrtab_of_fail _ _ (filled (sizeofShdr * hdr.shnum) []) h hindex
  obtain ⟨textSh, htext⟩ := @ok_findText _ _ (List.range hdr.shnum)
    fun i _ => nameTerminated_of_zeros hdr.shstrndx (sizeofShdr * hdr.shnum) i
  refine ⟨(file, textSh), ?_⟩
  simp only [textHeader, hload, hnames, htext, bind, Except.bind, pure, Except.pure]

/-- The search in a file whose names the first listing could print. -/
theorem ok_textHeader (h : file.fail = false) (hthere : HeadersThere file.bytes hdr)
    (hfit : HeadersFit file.bytes hdr) (hindex : hdr.shstrndx < hdr.shnum)
    (hnames : NamesTerminated file.bytes hdr) : Ok (textHeader file hdr) := by
  obtain ⟨pos, hload⟩ := loadSections_of_there h hthere hfit
  obtain ⟨file', -, hload'⟩ := @loadShstrtab_of_index
    ⟨file.bytes, pos, false⟩ hdr (loadedHeaders file.bytes hdr) rfl hindex
  obtain ⟨textSh, htext⟩ := @ok_findText _ _ (List.range hdr.shnum)
    fun i hi => hnames i (List.mem_range.mp hi)
  refine ⟨(file', textSh), ?_⟩
  simp only [textHeader, hload, hload', htext, bind, Except.bind, pure, Except.pure]

theorem index_of_printTextSection (hok : Ok (printTextSection s hdr)) :
    hdr.shstrndx < hdr.shnum := by
  obtain ⟨t, ht⟩ := hok
  obtain ⟨r, hr, -⟩ := bind_eq_ok.mp ht
  obtain ⟨r', -, hr⟩ := bind_eq_ok.mp hr
  obtain ⟨r'', hnames, -⟩ := bind_eq_ok.mp hr
  exact index_of_loadShstrtab ⟨r'', hnames⟩

/-! ## The run -/

/-- The file passes the checks of `main`: it has an ELF header, which says so, of the 32-bit class. -/
def Accepted (bytes : List Byte) : Prop :=
  sizeofEhdr ≤ bytes.length ∧ bytes.take 4 = [0x7f, 0x45, 0x4c, 0x46] ∧ bytes[4]? = some 1

instance (bytes : List Byte) : Decidable (Accepted bytes) := inferInstanceAs (Decidable (_ ∧ _ ∧ _))

/-- The header of the file. -/
def header (bytes : List Byte) : Ehdr := ehdrAt (bytes.take sizeofEhdr)

/-- What the header and the section headers of a file must be for the dumper to stay within its buffers:
`e_shstrndx` is an index, the section headers take at most 40 bytes each, as far as the file has them,
and an `int` holds their number of bytes; if the file has all of them, every name ends inside the name
table. -/
structure Readable (bytes : List Byte) (hdr : Ehdr) : Prop where
  index : hdr.shstrndx < hdr.shnum
  fit : HeadersFit bytes hdr
  names : HeadersThere bytes hdr → NamesTerminated bytes hdr

/-- The two listings, one after the other, from a stream that has not failed. -/
theorem ok_listings_iff (h : s.file.fail = false) :
    Ok ((printSectionHeaders s hdr).bind fun t => printTextSection t hdr) ↔
      Readable s.file.bytes hdr := by
  constructor
  · rintro ⟨u, hu⟩
    obtain ⟨t, ht, hu⟩ := bind_eq_ok.mp hu
    exact ⟨index_of_printTextSection ⟨u, hu⟩, fit_of_printSectionHeaders h ⟨t, ht⟩,
      fun hthere => names_of_printSectionHeaders h hthere ⟨t, ht⟩⟩
  · rintro ⟨hindex, hfit, hnames⟩
    by_cases hthere : HeadersThere s.file.bytes hdr
    · obtain ⟨t, ht, hbytes⟩ := ok_printSectionHeaders h hthere hfit hindex (hnames hthere)
      have htext : Ok (textHeader t.file hdr) := by
        cases hfail : t.file.fail with
        | true => exact ok_textHeader_of_fail hfail hfit.1 hindex
        | false =>
            rw [← hbytes] at hthere hfit hnames
            exact ok_textHeader hfail hthere hfit hindex (hnames hthere)
      obtain ⟨u, hu⟩ := ok_printTextSection htext
      exact ⟨u, bind_eq_ok.mpr ⟨t, ht, hu⟩⟩
    · obtain ⟨t, ht, hfail⟩ := printSectionHeaders_of_short h hthere hfit
      obtain ⟨u, hu⟩ := ok_printTextSection (ok_textHeader_of_fail hfail hfit.1 hindex)
      exact ⟨u, bind_eq_ok.mpr ⟨t, ht, hu⟩⟩

/-- What `main` does with a file that passes its checks. -/
theorem main_of_accepted (path : Str) {bytes : List Byte} (h : Accepted bytes) :
    Dis.main path (some bytes) =
      ((printSectionHeaders ⟨⟨bytes, sizeofEhdr, false⟩,
        printElfHeader ((bytes.take sizeofEhdr).take 16) (header bytes), []⟩ (header bytes)).bind
          fun t => printTextSection t (header bytes)).bind fun t => .ok ⟨0, t.out, t.err⟩ := by
  obtain ⟨hlen, hmagic, hclass⟩ := h
  have hread : (IStream.ofBytes bytes).read sizeofEhdr =
      (⟨bytes, sizeofEhdr, false⟩, bytes.take sizeofEhdr) := by
    have hslice : slice (IStream.ofBytes bytes).bytes (IStream.ofBytes bytes).pos sizeofEhdr =
        some (bytes.take sizeofEhdr) := by
      simp [IStream.ofBytes, slice, hlen]
    rw [IStream.read_of_slice rfl hslice]
    simp [IStream.ofBytes]
  have hident : ((bytes.take sizeofEhdr).take 16).take 4 = bytes.take 4 := by
    rw [List.take_take, List.take_take]
    rfl
  have hident' : ((bytes.take sizeofEhdr).take 16)[4]? = bytes[4]? := by
    simp [sizeofEhdr]
  simp only [Dis.main, hread, hident, hident', hmagic, hclass, Bool.false_eq_true, if_false, ne_eq,
    not_true_eq_false, header]
  exact (bind_assoc (m := Except Fault) _ _ _).symm

/-- **Which accepted files the dumper can read** without leaving a buffer. -/
theorem ok_main_iff (path : Str) (bytes : List Byte) (h : Accepted bytes) :
    Ok (Dis.main path (some bytes)) ↔ Readable bytes (header bytes) := by
  rw [main_of_accepted path h, ← @ok_listings_iff (header bytes) ⟨⟨bytes, sizeofEhdr, false⟩,
    printElfHeader ((bytes.take sizeofEhdr).take 16) (header bytes), []⟩ rfl]
  constructor
  · rintro ⟨r, hr⟩
    obtain ⟨t, ht, -⟩ := bind_eq_ok.mp hr
    exact ⟨t, ht⟩
  · rintro ⟨t, ht⟩
    exact ⟨_, bind_eq_ok.mpr ⟨t, ht, rfl⟩⟩

/-- An ELF header with the given place, size and number of section headers. -/
def elfHeader (shoff shentsize shnum : Byte) : List Byte :=
  [0x7f, 0x45, 0x4c, 0x46, 1] ++ List.replicate 27 0 ++ [shoff, 0, 0, 0] ++ List.replicate 10 0 ++
    [shentsize, 0, shnum, 0, 0, 0]

/-- A file of the null section alone. -/
def nullSection : List Byte := elfHeader 52 40 1 ++ List.replicate 40 0

theorem ok_main_nullSection : Ok (Dis.main (str "a.o") (some nullSection)) :=
  (ok_main_iff (str "a.o") nullSection (by decide)).mpr ⟨by decide, by decide, fun _ => by decide⟩

/-- A file without sections: `e_shstrndx` is zero, and there is no header at that index. -/
theorem index_of_elfHeader : ¬ ∀ path bytes, Accepted bytes → Ok (Dis.main path (some bytes)) := by
  intro h
  obtain ⟨r, hr⟩ := h (str "a.o") (elfHeader 0 0 0) (by decide)
  have hfault : Dis.main (str "a.o") (some (elfHeader 0 0 0)) = .error .index := by
    rfl
  rw [hfault] at hr
  cases hr

end Dis

namespace ELF32

open Dis

/-- The files of the assembler are readable. -/
theorem Shaped.readable {e : ELF32} (h : Shaped e) (hlen : e.file.length < 2 ^ 32) :
    Readable e.file e.view.ehdr := by
  obtain ⟨pos, lines, -, hheaders⟩ := printSectionHeaders_file h hlen 0 [] []
  obtain ⟨pos', htext⟩ := printTextSection_file h hlen pos
    ([] ++ sectionsTitle ++ lines.flatten ++ str "===============================\n") []
  have hlistings := @ok_listings_iff e.view.ehdr ⟨⟨e.file, 0, false⟩, [], []⟩ rfl
  exact hlistings.mp ⟨_, Runs.bind_eq_ok.mpr ⟨_, hheaders, htext⟩⟩

end ELF32

end RiscvAssembler
