import Mathlib.Data.List.Find
import RiscvAssembler.DumperSafety
import RiscvAssembler.Refinement

/-!
# What the dumper prints

On every ELF32 file in which a reader finds all headers and names, and not only on those of the assembler.

* `printSectionHeaders_of_wellFormed`, `textHeader_of_wellFormed`: the listings, in terms of what the
  reader finds.
* `readListing`: the bytes of `.text`, read back from the output (`readListing_append`).
* `dumped_of_wellFormed`: the dumper prints what a reader finds, and nothing of `.text` is lost in print.
-/

namespace RiscvAssembler

namespace Dis

open Bytes Gabi Runs

/-! ## One section -/

/-- The line of a section with the given name. -/
def headerLine (i : ℕ) (sh : Shdr) (text : Str) : Str :=
  let fill := if i = 0 then zeroFill else blankFill
  setw fill 4 (dec i) ++ str " " ++ setw fill 18 text ++ str " " ++
    setw fill 10 (hex sh.type) ++ str " 0x" ++ setw zeroFill 8 (hex sh.offset) ++ str " 0x" ++
    setw zeroFill 8 (hex sh.size) ++ str " 0x" ++ setw zeroFill 8 (hex sh.addr) ++ str "\n"

section

variable {tab text : List Byte} {sh : Shdr}

/-- A name that a reader finds is what `name` points to. -/
theorem name_of_readCString (h : readCString tab sh.name = some text) :
    (0 : Byte) ∈ name tab sh ∧ cString (name tab sh) = text := by
  have hlt := lt_length_of_readCString h
  unfold readCString at h
  split_ifs at h with hmem
  rw [name, if_pos hlt]
  exact ⟨hmem, Option.some.inj h⟩

theorem sectionLine_of_readCString {sections : List Byte} {i : ℕ}
    (h : readCString tab (sectionsAt sections i).name = some text) :
    sectionLine sections tab i = .ok (headerLine i (sectionsAt sections i) text) := by
  obtain ⟨hmem, htext⟩ := name_of_readCString h
  have hprinted : printed (name tab (sectionsAt sections i)) = .ok text := by
    rw [printed, if_pos (List.contains_iff_mem.mpr hmem), htext]
  simp only [sectionLine, hprinted]
  rfl

theorem cString_cons (c : Byte) (mem : List Byte) :
    cString (c :: mem) = if c = 0 then [] else c :: cString mem := by
  rw [cString, List.takeWhile_cons]
  by_cases hc : c = 0
  · rw [if_pos hc, hc]
    rfl
  · rw [if_neg hc, if_pos (bne_iff_ne.mpr hc)]
    rfl

/-- `strcmp` compares C strings. -/
theorem strcmpEq_eq {mem s : Str} (hmem : (0 : Byte) ∈ mem) (hs : (0 : Byte) ∉ s) :
    strcmpEq mem s = .ok (cString mem == s) := by
  induction mem generalizing s with
  | nil => cases hmem
  | cons c mem ih =>
      rw [cString_cons]
      cases s with
      | nil =>
          rw [strcmpEq]
          by_cases hc : c = 0
          · rw [if_pos hc, hc]
            rfl
          · rw [if_neg hc, beq_false_of_ne hc]
            rfl
      | cons d s =>
          have hd : d ≠ 0 := fun hd => hs (hd ▸ List.mem_cons_self)
          have hs' : (0 : Byte) ∉ s := fun hmem => hs (List.mem_cons_of_mem _ hmem)
          rw [strcmpEq]
          by_cases hcd : c = d
          · subst hcd
            have hmem' : (0 : Byte) ∈ mem := (List.mem_cons.mp hmem).resolve_left (Ne.symm hd)
            rw [if_pos rfl, if_neg hd, ih hmem' hs']
            simp
          · rw [if_neg hcd]
            by_cases hc : c = 0
            · rw [if_pos hc]
              rfl
            · rw [if_neg hc]
              simp [hcd]

/-- The search finds the first section with the name. -/
theorem findText_eq {sections : List Byte} {is : List ℕ}
    (h : ∀ i ∈ is, (0 : Byte) ∈ name tab (sectionsAt sections i)) :
    findText sections tab is = .ok ((is.map (sectionsAt sections)).find? fun sh =>
      cString (name tab sh) == str ".text") := by
  induction is with
  | nil => rfl
  | cons i is ih =>
      have hrest := ih fun j hj => h j (List.mem_cons_of_mem _ hj)
      have hfirst := strcmpEq_eq (h i List.mem_cons_self) (show (0 : Byte) ∉ str ".text" by decide)
      rw [findText, hfirst, List.map_cons, List.find?_cons]
      cases hname : cString (name tab (sectionsAt sections i)) == str ".text" with
      | true => rfl
      | false => exact hrest

end

/-! ## The tables -/

section

variable {f : List Byte} {h : Ehdr} {shs : List Shdr}

/-- The bytes of the section header table. -/
def headerTable (f : List Byte) (h : Ehdr) : List Byte := (f.drop h.shoff).take (40 * h.shnum)

theorem loadSections_of_wellFormed (hw : WellFormed f h shs) (pos : ℕ) :
    ∃ pos', loadSections ⟨f, pos, false⟩ h = .ok (⟨f, pos', false⟩, headerTable f h) := by
  have hshnum := hw.shnum_lt
  have hslice : slice f h.shoff (40 * h.shnum) = some (headerTable f h) := if_pos hw.table_le
  have hsmall : ¬ 2 ^ 31 ≤ h.shentsize * h.shnum := by
    rw [hw.shentsize]
    omega
  refine ⟨h.shoff + 40 * h.shnum, ?_⟩
  rw [loadSections, if_neg hsmall, hw.shentsize]
  exact @readInto_of_slice ⟨f, h.shoff, false⟩ _ _ rfl hslice

theorem sectionsAt_of_wellFormed (hw : WellFormed f h shs) {i : ℕ} (hi : i < shs.length) :
    sectionsAt (headerTable f h) i = shs[i] :=
  hw.shdrAt_eq hi

/-- The vector that is searched. -/
theorem map_sectionsAt (hw : WellFormed f h shs) :
    (List.range h.shnum).map (sectionsAt (headerTable f h)) = shs := by
  apply List.ext_getElem
  · rw [List.length_map, List.length_range, hw.length_eq]
  · intro i hi hi'
    rw [List.getElem_map, List.getElem_range, sectionsAt_of_wellFormed hw hi']

/-- The table of names is the one that a reader finds. -/
theorem loadShstrtab_of_wellFormed (hw : WellFormed f h shs) :
    ∃ tab, (∀ pos, ∃ pos', loadShstrtab ⟨f, pos, false⟩ h (headerTable f h) = .ok (⟨f, pos', false⟩, tab)) ∧
      ∀ sh, sectionName f h sh = readCString tab sh.name := by
  obtain ⟨hi, tab, htab, hnames⟩ := hw.strings
  refine ⟨tab, fun pos => ⟨shs[h.shstrndx].offset + shs[h.shstrndx].size, ?_⟩, hnames⟩
  rw [loadShstrtab, if_pos hw.shstrndx]
  simp only [sectionsAt_of_wellFormed hw hi]
  exact @readInto_of_slice ⟨f, shs[h.shstrndx].offset, false⟩ _ _ rfl htab

/-! ## The listings -/

/-- The listing of the section headers, with the names that a reader finds. -/
def headerLines (f : List Byte) (h : Ehdr) (shs : List Shdr) : List Str :=
  shs.mapIdx fun i sh => headerLine i sh ((sectionName f h sh).getD [])

/-- What is printed of the headers. -/
def headersText (f : List Byte) (h : Ehdr) (shs : List Shdr) : Str :=
  printElfHeader (f.take 16) h ++ sectionsTitle ++ (headerLines f h shs).flatten ++
    str "===============================\n"

theorem printSectionHeaders_of_wellFormed (hw : WellFormed f h shs) (pos : ℕ) :
    ∃ pos', printSectionHeaders ⟨⟨f, pos, false⟩, printElfHeader (f.take 16) h, []⟩ h =
      .ok ⟨⟨f, pos', false⟩, headersText f h shs, []⟩ := by
  obtain ⟨pos₁, hload⟩ := loadSections_of_wellFormed hw pos
  obtain ⟨tab, hshstrtab, hnames⟩ := loadShstrtab_of_wellFormed hw
  obtain ⟨pos₂, hload₂⟩ := hshstrtab pos₁
  have hlines : (List.range h.shnum).mapM (sectionLine (headerTable f h) tab) =
      .ok (headerLines f h shs) := by
    have hcount : h.shnum = (headerLines f h shs).length := by
      rw [headerLines, List.length_mapIdx, hw.length_eq]
    rw [hcount]
    refine mapM_range_eq (m := Except Fault) fun i hi => ?_
    rw [headerLines, List.length_mapIdx] at hi
    obtain ⟨text, htext⟩ := hw.names _ (List.getElem_mem hi)
    have hread : readCString tab (sectionsAt (headerTable f h) i).name = some text := by
      rw [sectionsAt_of_wellFormed hw hi, ← hnames, htext]
    rw [sectionLine_of_readCString hread, sectionsAt_of_wellFormed hw hi]
    simp only [headerLines, List.getElem_mapIdx, htext, Option.getD_some]
    rfl
  refine ⟨pos₂, ?_⟩
  simp only [printSectionHeaders, hload, hload₂, hlines, bind, Except.bind, pure, Except.pure,
    Bool.false_eq_true, if_false, headersText]

/-- The search for `.text` finds what a reader finds. -/
theorem textHeader_of_wellFormed (hw : WellFormed f h shs) (pos : ℕ) :
    ∃ pos', textHeader ⟨f, pos, false⟩ h =
      .ok (⟨f, pos', false⟩, sectionNamed f h (str ".text")) := by
  obtain ⟨pos₁, hload⟩ := loadSections_of_wellFormed hw pos
  obtain ⟨tab, hshstrtab, hnames⟩ := loadShstrtab_of_wellFormed hw
  obtain ⟨pos₂, hload₂⟩ := hshstrtab pos₁
  have hread : ∀ sh ∈ shs, (0 : Byte) ∈ name tab sh ∧
      sectionName f h sh = some (cString (name tab sh)) := by
    intro sh hsh
    obtain ⟨text, htext⟩ := hw.names sh hsh
    obtain ⟨hmem, heq⟩ := name_of_readCString ((hnames sh).symm.trans htext)
    exact ⟨hmem, heq ▸ htext⟩
  have hfind : findText (headerTable f h) tab (List.range h.shnum) =
      .ok (sectionNamed f h (str ".text")) := by
    rw [findText_eq, map_sectionsAt hw, sectionNamed, hw.headers, Option.bind_some]
    · congr 1
      refine List.find?_congr fun sh hsh => ?_
      rw [(hread sh hsh).2]
      exact (Option.some_beq_some).symm
    · intro i hi
      have hlt : i < shs.length := hw.length_eq ▸ List.mem_range.mp hi
      rw [sectionsAt_of_wellFormed hw hlt]
      exact (hread _ (List.getElem_mem hlt)).1
  refine ⟨pos₂, ?_⟩
  simp only [textHeader, hload, hload₂, hfind, bind, Except.bind, pure, Except.pure]

end

/-! ## Reading the output -/

/-- The lines of a text that ends with a newline. -/
def lines : Str → List Str
  | [] => []
  | c :: s =>
    if c = 0x0a then [] :: lines s
    else
      match lines s with
      | [] => [[c]]
      | line :: rest => (c :: line) :: rest

/-- The value of a lower-case hexadecimal digit. -/
def digitValue (c : Byte) : Option ℕ :=
  if 0x30 ≤ c ∧ c ≤ 0x39 then some (c.toNat - 0x30)
  else if 0x61 ≤ c ∧ c ≤ 0x66 then some (c.toNat - 0x61 + 10)
  else none

/-- Bytes in hexadecimal, each with a blank behind it. -/
def readBytes : Str → Option (List Byte)
  | [] => some []
  | high :: low :: _ :: s => do
    let h ← digitValue high
    let l ← digitValue low
    let bs ← readBytes s
    some (BitVec.ofNat 8 (16 * h + l) :: bs)
  | _ => none

/-- The bytes of a line of `print_text_section`. -/
def readTextLine (line : Str) : Option (List Byte) :=
  readBytes ((line.dropWhile (· != 0x3a)).drop 2)

/-- The bytes of `.text`, from the output: the lines in front of the last one, as far up as they have an
address. -/
def readListing (out : Str) : Option (List Byte) :=
  (((lines out).reverse.drop 1).takeWhile fun line => line.take 2 == str "0x").reverse.mapM readTextLine
    |>.map List.flatten

/-! ### Lines -/

/-- A line in front of a text. -/
theorem lines_cons {line : Str} (h : (0x0a : Byte) ∉ line) (rest : Str) :
    lines (line ++ 0x0a :: rest) = line :: lines rest := by
  induction line with
  | nil => rw [List.nil_append, lines, if_pos rfl]
  | cons c line ih =>
      have hc : c ≠ 0x0a := fun hc => h (hc ▸ List.mem_cons_self)
      rw [List.cons_append, lines, if_neg hc, ih fun hmem => h (List.mem_cons_of_mem _ hmem)]

/-- A text in front of which there is one that ends with a newline. -/
theorem lines_append (s rest : Str) : lines (s ++ 0x0a :: rest) = lines (s ++ [0x0a]) ++ lines rest := by
  induction s with
  | nil => simp [lines]
  | cons c s ih =>
      rw [List.cons_append, List.cons_append, lines, lines, ih]
      split_ifs with hc
      · rfl
      · cases hlines : lines (s ++ [0x0a]) with
        | nil =>
            -- there is at least the line that ends there
            exfalso
            cases s with
            | nil => simp [lines] at hlines
            | cons d s =>
                rw [List.cons_append, lines] at hlines
                split_ifs at hlines
                split at hlines <;> cases hlines
        | cons line more => rfl

/-! ### Digits -/

/-- The digit of a number below 16. -/
def digit (d : ℕ) : Byte := BitVec.ofNat 8 (Nat.digitChar d).toNat

theorem digitValue_digit {d : ℕ} (h : d < 16) : digitValue (digit d) = some d := by
  revert d
  decide

theorem hex_eq (n : ℕ) : hex n = if n < 16 then [digit n] else hex (n / 16) ++ [digit (n % 16)] := by
  simp only [hex, str, String.toList_ofList]
  rw [Nat.toDigits_eq_if (by decide)]
  split_ifs
  · rfl
  · rw [List.map_append]
    rfl

/-- A number is written in digits. -/
theorem exists_digit_of_mem_hex {n : ℕ} {c : Byte} (h : c ∈ hex n) : ∃ d < 16, c = digit d := by
  induction n using Nat.strong_induction_on with
  | _ n ih =>
      rw [hex_eq] at h
      split_ifs at h with hlt
      · exact ⟨n, hlt, List.mem_singleton.mp h⟩
      · rcases List.mem_append.mp h with hmem | hmem
        · exact ih (n / 16) (by omega) hmem
        · exact ⟨n % 16, Nat.mod_lt _ (by decide), List.mem_singleton.mp hmem⟩

/-- A byte is written in two digits. -/
theorem setw_hex (b : Byte) :
    setw zeroFill 2 (hex b.toNat) = [digit (b.toNat / 16), digit (b.toNat % 16)] := by
  have hb := b.isLt
  rw [hex_eq]
  split_ifs with hlt
  · rw [Nat.div_eq_of_lt hlt, Nat.mod_eq_of_lt hlt]
    rfl
  · rw [hex_eq, if_pos (by omega)]
    rfl

theorem readBytes_hex (bs : List Byte) :
    readBytes (bs.flatMap fun b => setw zeroFill 2 (hex b.toNat) ++ str " ") = some bs := by
  induction bs with
  | nil => rfl
  | cons b bs ih =>
      have hb := b.isLt
      have hhigh : digitValue (digit (b.toNat / 16)) = some (b.toNat / 16) := digitValue_digit (by omega)
      have hlow : digitValue (digit (b.toNat % 16)) = some (b.toNat % 16) := digitValue_digit (by omega)
      have hbyte : BitVec.ofNat 8 (16 * (b.toNat / 16) + b.toNat % 16) = b := by
        rw [Nat.div_add_mod, BitVec.ofNat_toNat, BitVec.setWidth_eq]
      have hsplit : (b :: bs).flatMap (fun b => setw zeroFill 2 (hex b.toNat) ++ str " ") =
          digit (b.toNat / 16) :: digit (b.toNat % 16) :: 0x20 ::
            bs.flatMap fun b => setw zeroFill 2 (hex b.toNat) ++ str " " := by
        rw [List.flatMap_cons, setw_hex]
        rfl
      rw [hsplit, readBytes, hhigh, hlow, ih]
      simp [hbyte]

/-- The text of a line of `print_text_section`. -/
def textLineBody (addr : ℕ) (bs : List Byte) : Str :=
  str "0x" ++ setw zeroFill 8 (hex addr) ++ str " : " ++
    (bs.flatMap fun b => setw zeroFill 2 (hex b.toNat) ++ str " ")

theorem textLine_eq (addr : ℕ) (bs : List Byte) : textLine addr bs = textLineBody addr bs ++ [0x0a] := rfl

/-- No digit, blank or fill is a newline or a colon. -/
theorem address_clean (addr : ℕ) :
    ∀ c ∈ str "0x" ++ setw zeroFill 8 (hex addr) ++ [0x20], c ≠ 0x0a ∧ c ≠ 0x3a := by
  have hdigit : ∀ d < 16, digit d ≠ 0x0a ∧ digit d ≠ 0x3a := by decide
  intro c hc
  simp only [List.mem_append, setw, List.mem_replicate] at hc
  rcases hc with (hc | ⟨-, rfl⟩ | hc) | hc
  · revert c
    decide
  · decide
  · obtain ⟨d, hd, rfl⟩ := exists_digit_of_mem_hex hc
    exact hdigit d hd
  · obtain rfl := List.mem_singleton.mp hc
    decide

/-- A line of `print_text_section` has no newline inside, starts as it does, and reads back. -/
theorem textLineBody_reads (addr : ℕ) (bs : List Byte) :
    (0x0a : Byte) ∉ textLineBody addr bs ∧ (textLineBody addr bs).take 2 = str "0x" ∧
      readTextLine (textLineBody addr bs) = some bs := by
  have hsplit : textLineBody addr bs = (str "0x" ++ setw zeroFill 8 (hex addr) ++ [0x20]) ++
      (0x3a :: 0x20 :: bs.flatMap fun b => setw zeroFill 2 (hex b.toNat) ++ str " ") := by
    simp [textLineBody, str]
  have hdigit : ∀ d < 16, digit d ≠ 0x0a := by decide
  refine ⟨?_, rfl, ?_⟩
  · rw [hsplit, List.mem_append, not_or]
    refine ⟨fun h => (address_clean addr _ h).1 rfl, ?_⟩
    simp only [setw_hex, List.mem_cons, List.mem_flatMap, List.mem_append, List.not_mem_nil, or_false]
    rintro (hc | hc | ⟨b, -, (hc | hc) | hc⟩)
    · exact absurd hc (by decide)
    · exact absurd hc (by decide)
    · exact hdigit _ (Nat.div_lt_of_lt_mul b.isLt) hc.symm
    · exact hdigit _ (Nat.mod_lt _ (by decide)) hc.symm
    · exact absurd hc (by decide)
  · have hdrop : (textLineBody addr bs).dropWhile (· != 0x3a) =
        0x3a :: 0x20 :: bs.flatMap fun b => setw zeroFill 2 (hex b.toNat) ++ str " " := by
      rw [hsplit, List.dropWhile_append_of_pos fun c hc => bne_iff_ne.mpr (address_clean addr c hc).2]
      rfl
    rw [readTextLine, hdrop]
    exact readBytes_hex bs

/-! ### Listings -/

/-- Consecutive parts of a list, put together. -/
theorem flatMap_parts (w m : ℕ) (bs : List Byte) :
    ((List.range m).flatMap fun k => (bs.drop (w * k)).take w) = bs.take (w * m) := by
  induction m with
  | zero => simp
  | succ m ih =>
      rw [List.range_succ, List.flatMap_append, ih, List.flatMap_singleton, Nat.mul_succ, List.take_add]

/-- The rows of a listing: their addresses and bytes. -/
def rows (addr : ℕ) (bs : List Byte) : List (ℕ × List Byte) :=
  (List.range ((bs.length + 3) / 4)).map fun k => (addr + 4 * k, (bs.drop (4 * k)).take 4)

theorem textLines_eq (addr : ℕ) (bs : List Byte) :
    textLines addr bs = (rows addr bs).map fun r => textLine r.1 r.2 := by
  rw [textLines, rows, List.map_map]
  rfl

theorem bytes_rows (addr : ℕ) (bs : List Byte) : ((rows addr bs).map Prod.snd).flatten = bs := by
  rw [rows, List.map_map, ← List.flatMap_def]
  exact (flatMap_parts 4 _ bs).trans (List.take_of_length_le (by omega))

theorem lines_rows (rs : List (ℕ × List Byte)) (rest : Str) :
    lines ((rs.map fun r => textLine r.1 r.2).flatten ++ rest) =
      (rs.map fun r => textLineBody r.1 r.2) ++ lines rest := by
  induction rs with
  | nil => rfl
  | cons r rs ih =>
      rw [List.map_cons, List.flatten_cons, textLine_eq, List.append_assoc, List.append_assoc,
        List.singleton_append, lines_cons (textLineBody_reads r.1 r.2).1, ih]
      rfl

theorem mapM_rows (rs : List (ℕ × List Byte)) :
    (rs.map fun r => textLineBody r.1 r.2).mapM readTextLine = some (rs.map Prod.snd) := by
  induction rs with
  | nil => rfl
  | cons r rs ih =>
      rw [List.map_cons, List.mapM_cons, (textLineBody_reads r.1 r.2).2.2, ih]
      rfl

/-- **Nothing is lost in print**: the bytes of a listing read back from any output that it ends. -/
theorem readListing_append (front : Str) (addr : ℕ) (bs : List Byte) :
    readListing (front ++ textListing addr (textLines addr bs)) = some bs := by
  have haddr : (0x0a : Byte) ∉ str "Addr: 0x" ++ hex addr := by
    have hdigit : ∀ d < 16, digit d ≠ 0x0a := by decide
    rw [List.mem_append, not_or]
    refine ⟨by decide, fun h => ?_⟩
    obtain ⟨d, hd, hc⟩ := exists_digit_of_mem_hex h
    exact hdigit d hd hc.symm
  have hclosing : lines (str "===========================================\n") =
      [str "==========================================="] := by decide
  obtain ⟨before, hlines⟩ : ∃ before, lines (front ++ textListing addr (textLines addr bs)) =
      before ++ (str "Addr: 0x" ++ hex addr) ::
        ((rows addr bs).map (fun r => textLineBody r.1 r.2) ++
          [str "==========================================="]) := by
    refine ⟨lines (front ++ str "======= .text Section (instructions) =======" ++ [0x0a]), ?_⟩
    have hsplit : front ++ textListing addr (textLines addr bs) =
        (front ++ str "======= .text Section (instructions) =======") ++ 0x0a ::
          ((str "Addr: 0x" ++ hex addr) ++ 0x0a ::
            (((rows addr bs).map fun r => textLine r.1 r.2).flatten ++
              str "===========================================\n")) := by
      have htitle : str "======= .text Section (instructions) =======\n" =
          str "======= .text Section (instructions) =======" ++ [0x0a] := rfl
      have hend : str "\n" = [0x0a] := rfl
      rw [textListing, textLines_eq, htitle, hend]
      simp only [List.append_assoc, List.cons_append, List.nil_append]
    rw [hsplit, lines_append, lines_cons haddr, lines_rows, hclosing]
  have haddrLine : ((str "Addr: 0x" ++ hex addr).take 2 == str "0x") = false := rfl
  rw [readListing, hlines]
  simp only [List.reverse_append, List.reverse_cons, List.reverse_nil, List.nil_append, List.append_assoc,
    List.cons_append, List.drop_succ_cons, List.drop_zero]
  rw [List.takeWhile_append_of_pos, List.takeWhile_cons, haddrLine]
  · simp only [Bool.false_eq_true, if_false, List.append_nil, List.reverse_reverse, mapM_rows,
      Option.map_some, bytes_rows]
  · intro body hbody
    obtain ⟨r, -, rfl⟩ := List.mem_map.mp (List.mem_reverse.mp hbody)
    exact beq_iff_eq.mpr (textLineBody_reads r.1 r.2).2.1

/-! ## The run -/

section

variable {f : List Byte} {h : Ehdr} {shs : List Shdr}

/-- What a run of the dumper on a file leaves, in terms of what a reader finds there: the headers with
their names, and the bytes of the first section that is called `.text`, which can be read back. -/
structure Dumped (f : List Byte) (h : Ehdr) (shs : List Shdr) (r : Result) : Prop where
  status : r.status = 0
  headers : headersText f h shs <+: r.out
  text : ∀ sh bs, sectionNamed f h (str ".text") = some sh → sectionBytes f sh = some bs →
    r.out = headersText f h shs ++ textListing sh.addr (textLines sh.addr bs) ∧ r.err = [] ∧
      readListing r.out = some bs
  noText : sectionNamed f h (str ".text") = none →
    r.out = headersText f h shs ∧ r.err = str "No .text section found.\n"

/-- A file with an ELF header passes the checks of `main`. -/
theorem accepted_of_readEhdr (hread : readEhdr f = some h) : Accepted f := by
  have hprefix : f.take 7 = identPrefix := by
    unfold readEhdr at hread
    split_ifs at hread with hprefix
    exact hprefix
  refine ⟨(readEhdr_take hread).1, ?_, ?_⟩
  · have htake := congrArg (List.take 4) hprefix
    rwa [List.take_take] at htake
  · have hget : (f.take 7)[4]? = some 1 := hprefix ▸ rfl
    rwa [List.getElem?_take_of_lt (by decide)] at hget

/-- A run on such a file is up to the listing of `.text`. -/
theorem main_of_wellFormed (path : Str) (hw : WellFormed f h shs) :
    ∃ pos, Dis.main path (some f) =
      (printTextSection ⟨⟨f, pos, false⟩, headersText f h shs, []⟩ h).bind
        fun t => .ok ⟨0, t.out, t.err⟩ := by
  have hheader : header f = h := (readEhdr_take hw.ehdr).2
  have hident : (f.take sizeofEhdr).take 16 = f.take 16 := by
    rw [List.take_take]
    rfl
  obtain ⟨pos, hsections⟩ := printSectionHeaders_of_wellFormed hw sizeofEhdr
  refine ⟨pos, ?_⟩
  rw [main_of_accepted path (accepted_of_readEhdr hw.ehdr), hheader, hident, hsections]
  rfl

/-- **The dumper prints what a reader finds**, on every file whose headers and names can all be read. -/
theorem dumped_of_wellFormed (path : Str) (hw : WellFormed f h shs) :
    ∃ r, Dis.main path (some f) = .ok r ∧ Dumped f h shs r := by
  obtain ⟨pos, hmain⟩ := main_of_wellFormed path hw
  obtain ⟨pos', htext⟩ := textHeader_of_wellFormed hw pos
  cases hnamed : sectionNamed f h (str ".text") with
  | none =>
      have hrun : printTextSection ⟨⟨f, pos, false⟩, headersText f h shs, []⟩ h =
          .ok ⟨⟨f, pos', false⟩, headersText f h shs, str "No .text section found.\n"⟩ := by
        rw [printTextSection, htext, hnamed]
        rfl
      rw [hrun] at hmain
      refine ⟨_, hmain, rfl, List.prefix_rfl, ?_, fun _ => ⟨rfl, rfl⟩⟩
      rw [hnamed]
      rintro _ _ ⟨⟩
  | some sh =>
      obtain ⟨⟨file, bytes⟩, hbytes⟩ := ok_readInto_self (IStream.seekg ⟨f, pos', false⟩ sh.offset) sh.size
      have hrun : printTextSection ⟨⟨f, pos, false⟩, headersText f h shs, []⟩ h =
          .ok ⟨file, headersText f h shs ++ textListing sh.addr (textLines sh.addr bytes), []⟩ := by
        rw [printTextSection, htext, hnamed]
        simp only [bind, Except.bind, hbytes]
        rfl
      rw [hrun] at hmain
      refine ⟨_, hmain, rfl, List.prefix_append _ _, ?_, ?_⟩
      · intro sh' bs hsome hbs
        obtain rfl := Option.some.inj (hnamed.symm.trans hsome)
        have hread : readInto (IStream.seekg ⟨f, pos', false⟩ sh.offset) sh.size sh.size = .ok _ :=
          @readInto_of_slice ⟨f, sh.offset, false⟩ _ _ rfl hbs
        obtain ⟨-, rfl⟩ := Prod.mk.inj (Except.ok.inj (hbytes.symm.trans hread))
        exact ⟨rfl, rfl, readListing_append _ _ _⟩
      · rw [hnamed]
        rintro ⟨⟩

end

/-! ## The assembler's files -/

/-- The headers of the file of a shaped object, in order. -/
theorem wellFormed_of_shaped {e : ELF32} (h : e.Shaped) (hlen : e.file.length < 2 ^ 32) :
    ∃ shs, WellFormed e.file e.view.ehdr shs := by
  have hread := h.reads_back hlen
  obtain ⟨null, hnull⟩ := hread.null
  refine ⟨_, hread.ehdr, rfl, headers_of_recovered hread hnull.header, (by decide : (2 : ℕ) < 6), ?_⟩
  simp only [List.forall_mem_cons, List.not_mem_nil, IsEmpty.forall_iff, implies_true, and_true]
  exact ⟨⟨_, hnull.name⟩, ⟨_, hread.strtab.name⟩, ⟨_, hread.shstrtab.name⟩, ⟨_, hread.symtab.name⟩,
    ⟨_, hread.text.name⟩, ⟨_, hread.data.name⟩⟩

theorem listing_oneOfEach : ∃ r, Dis.main (str "out.o") (some (build ELF32.oneOfEach).file) = .ok r ∧
    r.err = [] ∧ readListing r.out = some ((build ELF32.oneOfEach).secText.bytes .le) := by
  have hshaped := ELF32.shaped_of_reachable ⟨ELF32.oneOfEach, rfl⟩
  have hread := hshaped.reads_back ELF32.length_file_oneOfEach
  obtain ⟨shs, hw⟩ := wellFormed_of_shaped hshaped ELF32.length_file_oneOfEach
  obtain ⟨r, hr, hdumped⟩ := dumped_of_wellFormed (str "out.o") hw
  exact ⟨r, hr, (hdumped.text _ _ (sections_of_recovered hread).1 hread.text.bytes).2⟩

end Dis

end RiscvAssembler
