import RiscvAssembler.Sections
import RiscvAssembler.Lib.Gabi

/-!
# The object dumper (`tools/dis.cc`)

`main` on the contents of a file, with what it prints. The structs that the code reads from the stream
as raw memory are read at their fields' offsets (`Gabi.ehdrAt`, `Gabi.shdrAt`), as a little-endian host
does; their declarations are those of `defs.h`. What the language leaves undefined is a `Fault`:
storing past a buffer, indexing past a vector, and running past the end of a name.

The stream keeps its fail bit from one function to the next, so that after a short read every later
one comes out empty.
-/

namespace RiscvAssembler

namespace Dis

open Bytes Gabi

/-! ## Undefined behaviour -/

/-- Where the code leaves what the language defines. -/
inductive Fault
  /-- `e_shentsize * e_shnum` does not fit an `int`. -/
  | overflow
  /-- A read stores more bytes than its buffer has. -/
  | overrun
  /-- `e_shstrndx` is not an index of the header vector. -/
  | index
  /-- A name has no terminator in front of the end of its table. -/
  | unterminated
  deriving DecidableEq, Repr

/-- A vector of `size` zero bytes, and then `file.read` of `len` bytes into it. -/
def readInto (file : IStream) (size len : ℕ) : Except Fault (IStream × List Byte) :=
  let (file, got) := file.read len
  if got.length ≤ size then .ok (file, got ++ List.replicate (size - got.length) 0)
  else .error .overrun

/-! ## Numbers on a stream -/

/-- A number in decimal. -/
def dec (n : ℕ) : Str := str (toString n)

/-- A number after `std::hex`. -/
def hex (n : ℕ) : Str := str (String.ofList (Nat.toDigits 16 n))

/-- `std::setw` and `std::setfill`, adjusted to the right. -/
def setw (fill : Byte) (width : ℕ) (s : Str) : Str := List.replicate (width - s.length) fill ++ s

/-- The fill characters in use. -/
def zeroFill : Byte := 0x30
@[inherit_doc zeroFill] def blankFill : Byte := 0x20

/-! ## The tables -/

/-- Load the section headers.
Source: `dis.cc`, the first lines of `print_section_headers` and of `print_text_section`. -/
def loadSections (file : IStream) (hdr : Ehdr) : Except Fault (IStream × List Byte) :=
  if 2 ^ 31 ≤ hdr.shentsize * hdr.shnum then .error .overflow
  else readInto (file.seekg hdr.shoff) (sizeofShdr * hdr.shnum) (hdr.shentsize * hdr.shnum)

/-- `sections[i]`. -/
def sectionsAt (sections : List Byte) (i : ℕ) : Shdr := shdrAt sections (sizeofShdr * i)

/-- Load the section name table.
Source: `dis.cc`, the next lines of both. -/
def loadShstrtab (file : IStream) (hdr : Ehdr) (sections : List Byte) :
    Except Fault (IStream × List Byte) :=
  if hdr.shstrndx < hdr.shnum then
    let shstrHdr := sectionsAt sections hdr.shstrndx
    readInto (file.seekg shstrHdr.offset) shstrHdr.size shstrHdr.size
  else .error .index

/-- The memory that `name` points to, up to the end of its array. -/
def name (shstrtab : List Byte) (sh : Shdr) : List Byte :=
  if sh.name < shstrtab.length then shstrtab.drop sh.name else str "<bad>" ++ [0]

/-- What is printed of a `char *`. -/
def printed (mem : List Byte) : Except Fault Str :=
  if mem.contains 0 then .ok (cString mem) else .error .unterminated

/-- `std::strcmp(name, s) == 0`, for a literal `s`: bytes are compared up to the first difference or to
the NUL of both. -/
def strcmpEq : List Byte → Str → Except Fault Bool
  | [], _ => .error .unterminated
  | c :: _, [] => .ok (c == 0)
  | c :: mem, d :: s => if c = d then strcmpEq mem s else .ok false

/-! ## What is printed -/

/-- Source: `dis.cc`, `print_elf_header`; `std::hex` stays in force from the first line on. -/
def printElfHeader (eIdent : List Byte) (hdr : Ehdr) : Str :=
  str "====== ELF32 Header ======\n" ++ str "Magic:      " ++
    (eIdent.flatMap fun b => setw zeroFill 2 (hex b.toNat) ++ str " ") ++ str "\n" ++
    str "Class:      " ++ (if eIdent[4]? = some 1 then str "ELF32" else str "Invalid") ++ str "\n" ++
    str "Data:       " ++
      (if eIdent[5]? = some 1 then str "Little Endian" else str "Big Endian") ++ str "\n" ++
    str "Version:    " ++ hex (eIdent.getD 6 0).toNat ++ str "\n" ++
    str "OS/ABI:     " ++ hex (eIdent.getD 7 0).toNat ++ str "\n" ++
    str "Type:       " ++ hex hdr.type ++ str "\n" ++
    str "Machine:    " ++ hex hdr.machine ++ str "\n" ++
    str "Entry:      0x" ++ hex hdr.entry ++ str "\n" ++
    str "PH offset:  " ++ dec hdr.phoff ++ str "\n" ++
    str "SH offset:  " ++ dec hdr.shoff ++ str "\n" ++
    str "Flags:      0x" ++ hex hdr.flags ++ str "\n" ++
    str "EH size:    " ++ dec hdr.ehsize ++ str "\n" ++
    str "PH entsize: " ++ dec hdr.phentsize ++ str "\n" ++
    str "PH num:     " ++ dec hdr.phnum ++ str "\n" ++
    str "SH entsize: " ++ dec hdr.shentsize ++ str "\n" ++
    str "SH num:     " ++ dec hdr.shnum ++ str "\n" ++
    str "SH str idx: " ++ dec hdr.shstrndx ++ str "\n" ++
    str "============================\n\n"

/-- The title line of the section headers, under the fill of `print_elf_header`. -/
def sectionsTitle : Str :=
  str "======= Section Headers =======\n" ++
    setw zeroFill 4 (str "Idx") ++ str " " ++ setw zeroFill 18 (str "Name") ++ str " " ++
    setw zeroFill 10 (str "Type") ++ str " " ++ setw zeroFill 10 (str "Offset") ++ str " " ++
    setw zeroFill 10 (str "Size") ++ str " " ++ setw zeroFill 10 (str "Addr") ++ str "\n" ++
    str "---------------------------------------------------------------\n"

/-- One line of `print_section_headers`. The first one still has the fill of `print_elf_header`; each
ends with a blank fill. -/
def sectionLine (sections shstrtab : List Byte) (i : ℕ) : Except Fault Str := do
  let sh := sectionsAt sections i
  let fill := if i = 0 then zeroFill else blankFill
  let text ← printed (name shstrtab sh)
  return setw fill 4 (dec i) ++ str " " ++ setw fill 18 text ++ str " " ++
    setw fill 10 (hex sh.type) ++ str " 0x" ++ setw zeroFill 8 (hex sh.offset) ++ str " 0x" ++
    setw zeroFill 8 (hex sh.size) ++ str " 0x" ++ setw zeroFill 8 (hex sh.addr) ++ str "\n"

/-- What a run has read and printed so far. -/
structure Run where
  file : IStream
  out : Str
  err : Str

/-- Source: `dis.cc`, `print_section_headers`. -/
def printSectionHeaders (s : Run) (hdr : Ehdr) : Except Fault Run := do
  let (file, sections) ← loadSections s.file hdr
  if file.fail then
    return { s with file, err := s.err ++ str "Failed to read section headers.\n" }
  let (file, shstrtab) ← loadShstrtab file hdr sections
  let lines ← (List.range hdr.shnum).mapM (sectionLine sections shstrtab)
  return { s with
    file, out := s.out ++ sectionsTitle ++ lines.flatten ++ str "===============================\n" }

/-- The first of the given sections whose name is `.text`.
Source: `dis.cc`, the search loop of `print_text_section`. -/
def findText (sections shstrtab : List Byte) : List ℕ → Except Fault (Option Shdr)
  | [] => .ok none
  | i :: is => do
    let sh := sectionsAt sections i
    if ← strcmpEq (name shstrtab sh) (str ".text") then return some sh
    else findText sections shstrtab is

/-- The header that `print_text_section` finds, from the tables that it loads. -/
def textHeader (file : IStream) (hdr : Ehdr) : Except Fault (IStream × Option Shdr) := do
  let (file, sections) ← loadSections file hdr
  let (file, shstrtab) ← loadShstrtab file hdr sections
  let textSh ← findText sections shstrtab (List.range hdr.shnum)
  return (file, textSh)

/-- One line of `print_text_section`: an address, and up to four bytes. -/
def textLine (addr : ℕ) (bs : List Byte) : Str :=
  str "0x" ++ setw zeroFill 8 (hex addr) ++ str " : " ++
    (bs.flatMap fun b => setw zeroFill 2 (hex b.toNat) ++ str " ") ++ str "\n"

/-- The lines for the bytes of a section at an address, four bytes a line. -/
def textLines (addr : ℕ) (textData : List Byte) : List Str :=
  (List.range ((textData.length + 3) / 4)).map fun k =>
    textLine (addr + 4 * k) ((textData.drop (4 * k)).take 4)

/-- Everything that `print_text_section` prints of a section at an address, around its lines. -/
def textListing (addr : ℕ) (lines : List Str) : Str :=
  str "======= .text Section (instructions) =======\n" ++ str "Addr: 0x" ++ hex addr ++ str "\n" ++
    lines.flatten ++ str "===========================================\n"

/-- Source: `dis.cc`, `print_text_section`. -/
def printTextSection (s : Run) (hdr : Ehdr) : Except Fault Run := do
  let (file, textSh) ← textHeader s.file hdr
  match textSh with
  | none => return { s with file, err := s.err ++ str "No .text section found.\n" }
  | some textSh =>
    let (file, textData) ← readInto (file.seekg textSh.offset) textSh.size textSh.size
    return { s with
      file, out := s.out ++ textListing textSh.addr (textLines textSh.addr textData) }

/-! ## The program -/

/-- What a run of the program leaves: its status and its two streams. -/
structure Result where
  status : ℕ
  out : Str
  err : Str
  deriving DecidableEq

/-- The program on one argument, the path of a file; `none` stands for a file that cannot be opened.
Source: `dis.cc`, `main`. -/
def main (path : Str) (contents : Option (List Byte)) : Except Fault Result :=
  match contents with
  | none => .ok ⟨1, [], str "Failed to open file: " ++ path ++ str "\n"⟩
  | some bytes =>
    let (file, hdr) := (IStream.ofBytes bytes).read sizeofEhdr
    let eIdent := hdr.take 16
    if file.fail then .ok ⟨1, [], str "Failed to read ELF header.\n"⟩
    else if eIdent.take 4 ≠ [0x7f, 0x45, 0x4c, 0x46] then .ok ⟨1, [], str "Not an ELF file.\n"⟩
    else if eIdent[4]? ≠ some 1 then .ok ⟨1, [], str "Not a 32-bit ELF file.\n"⟩
    else do
      let s ← printSectionHeaders ⟨file, printElfHeader eIdent (ehdrAt hdr), []⟩ (ehdrAt hdr)
      let s ← printTextSection s (ehdrAt hdr)
      return ⟨0, s.out, s.err⟩

end Dis

end RiscvAssembler
