import Mathlib.Data.List.DropRight
import RiscvAssembler.ControlFlow
import RiscvAssembler.Alongside
import RiscvAssembler.Parser

/-!
# The program (`riscvass.y`, `main`)

`main` reads one file and writes another. The machine around it is a `Host`: what can be read, what can
be opened for writing, and how much can be written there. Of what is printed only the error stream is
kept.

* `beside_iff`: when the output goes into the directory of the source.
* `main_of_ok`, `main_of_error`: a run whose actions all go through, and one that an action ends.
* `refused_iff`: the action that ends a run belongs to an instruction that the source starts with.
* `tellsTruth_iff`: the exit status tells the truth exactly when an action ends the run, or the source
  is a program, its operands are in range and the output takes all of the object.
-/

namespace RiscvAssembler

open Bytes Lex Runs ParserState Scanner Bison

/-! ## Paths and files -/

/-- Source: `std::string::find_last_of`, for one character. -/
def findLastOf (c : Byte) (s : Str) : Option ℕ :=
  (s.reverse.findIdx? (· == c)).map fun i => s.length - 1 - i

/-- Source: `utils.cc`, `generate_dest_filename`. -/
def generateDestFilename (sourceFilename : Str) : Str :=
  match findLastOf 0x2e sourceFilename with
  | none => sourceFilename ++ str ".o"
  | some lastDot => sourceFilename.take lastDot ++ str ".o"

/-! ### Where the output goes -/

/-- The separator of directories, and what an extension starts with. -/
def slash : Byte := 0x2f
@[inherit_doc slash] def dot : Byte := 0x2e

/-- Everything of a path up to and including the last separator. -/
def directory (path : Str) : Str := path.rdropWhile (· != slash)

/-- What is behind the last separator of a path. -/
def fileName (path : Str) : Str := path.rtakeWhile (· != slash)

/-- The name of the object of a file: the text from the last dot on is replaced, or the extension is
added. -/
def objectName (name : Str) : Str :=
  if name.contains dot then (name.rdropWhile (· != dot)).dropLast ++ str ".o" else name ++ str ".o"

/-- The output is in the directory of the source, under its object's name. -/
def Beside (source output : Str) : Prop :=
  directory output = directory source ∧ fileName output = objectName (fileName source)

theorem directory_append_fileName (path : Str) : directory path ++ fileName path = path :=
  List.rdropWhile_append_rtakeWhile

theorem slash_notMem_fileName (path : Str) : slash ∉ fileName path := by
  intro h
  have hne := List.mem_rtakeWhile_imp h
  simp at hne

/-- A search from the end that is not stopped. -/
theorem bne_of_notMem {c : Byte} {s : Str} (h : c ∉ s) : ∀ b ∈ s.reverse, (b != c) = true := by
  intro b hb
  rw [bne_iff_ne]
  rintro rfl
  exact h (List.mem_reverse.mp hb)

/-- What is appended without a separator belongs to the file name. -/
theorem directory_append (path : Str) {s : Str} (h : slash ∉ s) :
    directory (path ++ s) = directory path := by
  rw [directory, directory, List.rdropWhile, List.reverse_append,
    List.dropWhile_append_of_pos (bne_of_notMem h)]
  rfl

@[inherit_doc directory_append] theorem fileName_append (path : Str) {s : Str} (h : slash ∉ s) :
    fileName (path ++ s) = fileName path ++ s := by
  rw [fileName, fileName, List.rtakeWhile, List.reverse_append,
    List.takeWhile_append_of_pos (bne_of_notMem h), List.reverse_append, List.reverse_reverse]
  rfl

/-- A name in the directory of a path. -/
theorem fileName_directory_append (path : Str) {s : Str} (h : slash ∉ s) :
    directory (directory path ++ s) = directory path ∧ fileName (directory path ++ s) = s := by
  have hempty : fileName (directory path) = [] := by
    rw [fileName, List.rtakeWhile_eq_nil_iff]
    exact fun hne => List.rdropWhile_last_not _ _ hne
  refine ⟨?_, by rw [fileName_append _ h, hempty, List.nil_append]⟩
  rw [directory_append _ h]
  exact List.rdropWhile_idempotent _ _

/-- A text cut at its last dot. -/
theorem exists_last_dot {s : Str} (h : dot ∈ s) :
    ∃ pre post, s = pre ++ dot :: post ∧ dot ∉ post := by
  obtain ⟨post, pre, hsplit, hpost⟩ := List.eq_append_cons_of_mem (List.mem_reverse.mpr h)
  refine ⟨pre.reverse, post.reverse, ?_, by simpa using hpost⟩
  rw [← List.reverse_reverse s, hsplit]
  simp

theorem objectName_append_cons (pre : Str) {post : Str} (h : dot ∉ post) :
    objectName (pre ++ dot :: post) = pre ++ str ".o" := by
  have hdrop : (pre ++ dot :: post).rdropWhile (· != dot) = pre ++ [dot] := by
    rw [List.rdropWhile, List.reverse_append, List.reverse_cons, List.append_assoc,
      List.dropWhile_append_of_pos (bne_of_notMem h)]
    simp
  have hdot : (pre ++ dot :: post).contains dot = true := List.contains_iff_mem.mpr (by simp)
  rw [objectName, if_pos hdot, hdrop, List.dropLast_concat]

/-- The search for the last dot finds none where there is none. -/
theorem generateDestFilename_of_notMem {path : Str} (h : dot ∉ path) :
    generateDestFilename path = path ++ str ".o" := by
  have hfind : findLastOf 0x2e path = none := by
    rw [findLastOf, List.findIdx?_eq_none_iff.mpr]
    · rfl
    · intro b hb
      simpa [dot] using bne_of_notMem h b hb
  rw [generateDestFilename, hfind]

/-- The search for the last dot finds it. -/
theorem generateDestFilename_append_cons (pre : Str) {post : Str} (h : dot ∉ post) :
    generateDestFilename (pre ++ dot :: post) = pre ++ str ".o" := by
  have hnone : post.reverse.findIdx? (· == dot) = none := by
    rw [List.findIdx?_eq_none_iff]
    intro b hb
    simpa using bne_of_notMem h b hb
  have hfind : findLastOf dot (pre ++ dot :: post) = some pre.length := by
    rw [findLastOf, List.reverse_append, List.reverse_cons, List.append_assoc, List.findIdx?_append,
      hnone]
    simp [List.findIdx?_cons]
  unfold dot at hfind
  rw [generateDestFilename, dot, hfind]
  simp

/-- The last dot of the path is in the file name. -/
theorem beside_of_mem {source : Str} (hname : dot ∈ fileName source) :
    Beside source (generateDestFilename source) := by
  obtain ⟨pre, post, hsplit, hpost⟩ := exists_last_dot hname
  have hsource : source = (directory source ++ pre) ++ dot :: post := by
    rw [List.append_assoc, ← hsplit, directory_append_fileName]
  have hdest : generateDestFilename source = directory source ++ (pre ++ str ".o") := by
    rw [← List.append_assoc, ← generateDestFilename_append_cons _ hpost, ← hsource]
  have hobject : slash ∉ pre ++ str ".o" := by
    rw [List.mem_append, not_or]
    exact ⟨fun hpre => slash_notMem_fileName source (hsplit ▸ List.mem_append_left _ hpre), by decide⟩
  rw [Beside, hdest, hsplit, objectName_append_cons pre hpost]
  exact fileName_directory_append source hobject

theorem objectName_of_notMem {name : Str} (h : dot ∉ name) : objectName name = name ++ str ".o" :=
  if_neg fun hdot => h (List.contains_iff_mem.mp hdot)

/-- The path has no dot. -/
theorem beside_of_notMem {source : Str} (hdot : dot ∉ source) :
    Beside source (generateDestFilename source) := by
  have hname : dot ∉ fileName source := by
    intro h
    rw [← directory_append_fileName source, List.mem_append, not_or] at hdot
    exact hdot.2 h
  have hslash : slash ∉ str ".o" := by decide
  rw [Beside, generateDestFilename_of_notMem hdot, objectName_of_notMem hname]
  exact ⟨directory_append source hslash, fileName_append source hslash⟩

/-- The last dot of the path is in a directory: the output is too short. -/
theorem not_beside_of_mem {source : Str} (hname : dot ∉ fileName source) (hdot : dot ∈ source) :
    ¬ Beside source (generateDestFilename source) := by
  rintro ⟨hdirectory, hfile⟩
  obtain ⟨pre, post, hsplit, hpost⟩ := exists_last_dot hdot
  have hdest : generateDestFilename source = pre ++ str ".o" := by
    rw [hsplit, generateDestFilename_append_cons pre hpost]
  have hwhole : generateDestFilename source = source ++ str ".o" := by
    rw [← directory_append_fileName (generateDestFilename source), hdirectory, hfile,
      objectName_of_notMem hname, ← List.append_assoc, directory_append_fileName]
  have hpre : pre = source := List.append_cancel_right (hdest.symm.trans hwhole)
  have hlength := congrArg List.length hsplit
  rw [← hpre] at hlength
  simp at hlength

/-- **Where the output goes**: beside the source, unless the last dot of the path is in a directory. -/
theorem beside_iff (source : Str) :
    Beside source (generateDestFilename source) ↔ dot ∈ fileName source ∨ dot ∉ source := by
  constructor
  · intro hbeside
    by_contra hnot
    rw [not_or, not_not] at hnot
    exact not_beside_of_mem hnot.1 hnot.2 hbeside
  · rintro (hname | hdot)
    · exact beside_of_mem hname
    · exact beside_of_notMem hdot

/-- A relative path without an extension: the output goes into another directory. -/
theorem up_not_beside : ¬ ∀ source, Beside source (generateDestFilename source) := by
  intro h
  have hup := (h (str "../src/prog")).1
  revert hup
  decide

/-! ### Files -/

/-- The machine that the program runs on. -/
structure Host where
  /-- The contents of the files that can be opened for reading. -/
  files : Str → Option (List Byte)
  /-- The paths that can be opened for writing. -/
  opens : Str → Bool
  /-- How many bytes can be written to a path. -/
  room : Str → ℕ

/-- All bytes can be written to the path. -/
def Host.Takes (host : Host) (path : Str) (bytes : List Byte) : Prop :=
  host.opens path = true ∧ bytes.length ≤ host.room path

/-- What is there when the program has ended: its status, what it wrote to the error stream, and the
files. -/
structure Result where
  status : ℤ
  err : Str
  files : Str → Option (List Byte)

/-- The files and the error message behind `write_elf`; opening the file empties it.
Source: `elf.cc`, `write_elf`. -/
def writeElf (host : Host) (elf : ELF32) (filename : Str) : (Str → Option (List Byte)) × Str :=
  if host.opens filename then
    (Function.update host.files filename (some (elf.file.take (host.room filename))),
      if elf.file.length ≤ host.room filename then [] else str "Error occurred during writing!\n")
  else (host.files, str "Unable to open file for writing.\n")

/-- The name of the output, from the arguments behind the name of the source. -/
def outFilename (source : Str) : List Str → Str
  | [_, out] => out
  | _ => generateDestFilename source

/-- Source: `riscvass.y`, `main`. The value of `yyparse` decides about nothing but the message of
`yyerror`. -/
def main (host : Host) : List Str → Result
  | _ :: source :: options =>
    match host.files source with
    | none => ⟨-1, [], host.files⟩
    | some contents =>
      let parsed := yyparse (tokens contents)
      match parseReductions parsed.reductions with
      -- `exit(1)` in `exit_with_message`
      | .error _ => ⟨1, [], host.files⟩
      | .ok s =>
        let written :=
          if parsed.program then
            writeElf host s.elf.resolveUnresolvedInstructions (outFilename source options)
          else (host.files, [])
        ⟨0, written.2 ++ if parsed.value = 0 then [] else str "Error: syntax error\n", written.1⟩
  | _ => ⟨1, [], host.files⟩

/-! ## Instructions that end the run -/

/-- Tokens and reductions start with statements and a block up to an instruction. -/
def UpTo (ts : List Token) (pre : List Reduction) (i : Instruction) : Prop :=
  ∃ ss l is rest,
    ts = tokensOf ss ++ (.symbol l :: .colon :: ((is ++ [i]).flatMap Instruction.tokens ++ rest)) ∧
      pre = reductionsOf ss ++ is.map .instruction

/-- The tokens start with statements and a block up to an instruction that its own action refuses. -/
def Refused (ts : List Token) : Prop :=
  ∃ pre i s, UpTo ts pre i ∧ run step ParserState.start pre = .ok s ∧ ¬ i.Accepted s

/-- An instruction among the reductions of a block. -/
theorem upTo_of_block {is : List Instruction} {pre post : List Reduction} {i : Instruction}
    (l : Symbol) (h : is.map Reduction.instruction = pre ++ .instruction i :: post)
    (rest : List Token) :
    UpTo (.symbol l :: .colon :: (is.flatMap Instruction.tokens ++ rest)) pre i := by
  obtain ⟨is₁, is', rfl, rfl, hrest⟩ := List.map_eq_append_iff.mp h
  obtain ⟨j, is₂, rfl, hj, -⟩ := List.map_eq_cons_iff.mp hrest
  cases hj
  exact ⟨[], l, is₁, is₂.flatMap Instruction.tokens ++ rest, by simp [tokensOf], by simp [reductionsOf]⟩

/-- Statements in front change nothing. -/
theorem UpTo.cons {ts : List Token} {pre : List Reduction} {i : Instruction} (h : UpTo ts pre i)
    (st : Statement) : UpTo (st.tokens ++ ts) (st.reductions ++ pre) i := by
  obtain ⟨ss, l, is, rest, rfl, rfl⟩ := h
  exact ⟨st :: ss, l, is, rest, by simp [tokensOf_cons], by simp [reductionsOf_cons]⟩

/-- An instruction among the reductions of statements. -/
theorem upTo_of_statements {ss : List Statement} {pre post : List Reduction} {i : Instruction}
    (h : reductionsOf ss = pre ++ .instruction i :: post) (rest : List Token) :
    UpTo (tokensOf ss ++ rest) pre i := by
  induction ss generalizing pre with
  | nil => simp [reductionsOf] at h
  | cons st ss ih =>
      rw [reductionsOf_cons] at h
      rw [tokensOf_cons, List.append_assoc]
      rcases append_eq_append_cons_cases h with ⟨post', hst⟩ | ⟨pre', rfl, hss⟩
      · cases st with
        | labelInstructions l block =>
            rcases append_eq_append_cons_cases hst with ⟨post₁, hblock⟩ | ⟨pre₁, -, hlabel⟩
            · exact upTo_of_block l hblock _
            · cases pre₁ <;> simp at hlabel
        | labelDirective l d => simp [Statement.reductions, List.cons_eq_append_iff] at hst
        | directive d => simp [Statement.reductions, List.cons_eq_append_iff] at hst
      · exact (ih hss).cons st

/-- An instruction among the reductions that were made when some tokens had been read. -/
theorem upTo_of_reads {read : List Token} {rs pre post : List Reduction} {s : Stack}
    {i : Instruction} (h : Reads read rs s) (hrs : rs = pre ++ .instruction i :: post)
    (rest : List Token) : UpTo (read ++ rest) pre i := by
  obtain ⟨ss, us, rs', rfl, rfl, -, htop⟩ := h
  rw [List.append_assoc]
  rcases append_eq_append_cons_cases hrs with ⟨post', hss⟩ | ⟨pre', rfl, hrs'⟩
  · exact upTo_of_statements hss _
  · have htop' : UpTo (us ++ rest) pre' i := by
      obtain ⟨b, top⟩ := s
      cases top with
      | labelInstruction l item =>
          obtain ⟨is, vs, rfl, rfl, -⟩ := htop
          rw [List.cons_append, List.cons_append, List.append_assoc]
          exact upTo_of_block l hrs' _
      | labelInstructions l =>
          obtain ⟨is, -, rfl, rfl⟩ := htop
          exact upTo_of_block l hrs' _
      | nothing => simp [htop.2] at hrs'
      | labelColon l => simp [htop.1] at hrs'
      | label l => simp [htop.1] at hrs'
      | directive item => simp [htop.1] at hrs'
      | labelDirective l item => simp [htop.1] at hrs'
    obtain ⟨ss', l, is, rest', htokens, rfl⟩ := htop'
    exact ⟨ss ++ ss', l, is, rest', by simp [tokensOf, htokens], by simp [reductionsOf_append]⟩

/-- Up to an instruction the reductions are those of what is there, whatever follows. -/
theorem UpTo.reductions {ts : List Token} {pre : List Reduction} {i : Instruction}
    (h : UpTo ts pre i) (hi : ∀ op, i ≠ .opcode op) :
    ∃ post, (yyparse ts).reductions = pre ++ .instruction i :: post := by
  obtain ⟨ss, l, is, rest, rfl, rfl⟩ := h
  have hboundary : Boundary
      (.symbol l :: .colon :: ((is ++ [i]).flatMap Instruction.tokens ++ rest)) :=
    boundary_label l _
  have hlabel : ∀ b, automaton.parse ⟨b, .nothing⟩
      (.symbol l :: .colon :: ((is ++ [i]).flatMap Instruction.tokens ++ rest)) =
      automaton.parse ⟨b, .labelColon l⟩ ((is ++ [i]).flatMap Instruction.tokens ++ rest) :=
    fun _ => rfl
  have hlast : ∀ op, (is ++ [i]).getLast? = some (.opcode op) → NoReg rest := by
    intro op hop
    rw [List.getLast?_concat] at hop
    exact absurd (Option.some.inj hop) (hi op)
  refine ⟨(automaton.parse ⟨false || !ss.isEmpty, .labelInstructions l⟩ rest).reductions, ?_⟩
  show (automaton.parse Bison.start _).reductions = _
  rw [Bison.start, parse_statements ss hboundary, hlabel,
    parse_instructions (is ++ [i]) (Or.inr ⟨rfl, by simp⟩) hlast]
  simp [Lr.Outcome.after]

/-- **The instruction that ends a run**: an action exits exactly when the tokens start with statements
and a block up to an instruction that is refused. -/
theorem refused_iff (ts : List Token) :
    (∃ m, parseReductions (yyparse ts).reductions = .error m) ↔ Refused ts := by
  rw [parseReductions, run_eq_error_iff]
  constructor
  · rintro ⟨pre, r, post, s, hrs, hrun, hfail⟩
    obtain ⟨read, hread, hreads⟩ := parse_reads ts
    cases r with
    | instruction i =>
        refine ⟨pre, i, s, ?_, hrun, fun hi => hfail ((step_instruction_ok_iff s i).mpr hi)⟩
        rw [hread]
        exact upTo_of_reads hreads hrs _
    | _ => exact absurd ⟨_, rfl⟩ hfail
  · rintro ⟨pre, i, s, hupTo, hrun, hi⟩
    have hopcode : ∀ op, i ≠ .opcode op := by
      rintro op rfl
      exact hi trivial
    obtain ⟨post, hrs⟩ := hupTo.reductions hopcode
    exact ⟨pre, .instruction i, post, s, hrs, hrun,
      fun hok => hi ((step_instruction_ok_iff s i).mp hok)⟩

/-! ## The exit status -/

section

variable {host : Host} {name source : Str} {options : List Str} {contents : List Byte}

/-- A run that an action ends. -/
theorem main_of_error {m : ExitMessage} (h : host.files source = some contents)
    (hrun : parseReductions (yyparse (tokens contents)).reductions = .error m) :
    main host (name :: source :: options) = ⟨1, [], host.files⟩ := by
  simp only [main, h, hrun]

/-- A run whose actions all go through returns 0. -/
theorem status_of_ok {s : ParserState} (h : host.files source = some contents)
    (hrun : parseReductions (yyparse (tokens contents)).reductions = .ok s) :
    (main host (name :: source :: options)).status = 0 := by
  simp only [main, h, hrun]

/-- A run on a program that no action ends. -/
theorem main_of_tokens {p : Program} {e : ELF32} (h : host.files source = some contents)
    (hp : tokens contents = p.tokens) (he : p.assemble = .ok e) :
    main host (name :: source :: options) =
      ⟨0, (writeElf host e (outFilename source options)).2,
        (writeElf host e (outFilename source options)).1⟩ := by
  obtain ⟨s, hs, hfix⟩ := bind_eq_ok.mp he
  cases hfix
  have hrun : parseReductions p.reductions = .ok s := hs
  simp only [main, h, hp, yyparse_tokens, hrun, if_true, List.append_nil]

end

/-- A path that takes all bytes has them afterwards. -/
theorem writeElf_of_takes {host : Host} {e : ELF32} {path : Str} (h : host.Takes path e.file) :
    writeElf host e path = (Function.update host.files path (some e.file), []) := by
  rw [writeElf, if_pos h.1, if_pos h.2, List.take_of_length_le h.2]

/-- The whole token stream of the source derives from `program`. -/
def IsProgram (contents : List Byte) : Prop := ∃ p : Program, tokens contents = p.tokens

/-- A literal of the source does not fit the 12 bits of every field that it can go to, or a reference
of the program is too far from its target. -/
def OperandOutOfRange (contents : List Byte) : Prop :=
  (∃ x ∈ lexemes contents, (∃ ival, x.token = .imm ival) ∧
      ¬ (-2048 ≤ literalValue x.text ∧ literalValue x.text ≤ 2047)) ∨
    ∃ p : Program, tokens contents = p.tokens ∧ ¬ p.DisplacementsInRange

/-- The object of the source cannot be written to the path. -/
def OutputFails (host : Host) (path : Str) (contents : List Byte) : Prop :=
  ∃ (p : Program) (e : ELF32), tokens contents = p.tokens ∧ p.assemble = .ok e ∧
    ¬ host.Takes path e.file

/-- What a build system relies on: status 0 stands for a source that is a program and an object that is
there, all of it; every failure has another status, and one in the source leaves the files alone. -/
structure TellsTruth (host : Host) (path : Str) (contents : List Byte) (r : Result) : Prop where
  success : r.status = 0 → ∃ (p : Program) (e : ELF32), tokens contents = p.tokens ∧
    p.assemble = .ok e ∧ r.files = Function.update host.files path (some e.file)
  failure : ¬ IsProgram contents ∨ OperandOutOfRange contents ∨ OutputFails host path contents →
    r.status ≠ 0
  untouched : ¬ IsProgram contents ∨ OperandOutOfRange contents → r.files = host.files

/-- **When the exit status tells the truth**: when an action ends the run, or everything is right. -/
theorem tellsTruth_iff (host : Host) (name source : Str) (options : List Str) (contents : List Byte)
    (h : host.files source = some contents) :
    TellsTruth host (outFilename source options) contents
        (main host (name :: source :: options)) ↔
      Refused (tokens contents) ∨ ¬ OperandOutOfRange contents ∧
        ∃ (p : Program) (e : ELF32), tokens contents = p.tokens ∧ p.assemble = .ok e ∧
          host.Takes (outFilename source options) e.file := by
  cases hrun : parseReductions (yyparse (tokens contents)).reductions with
  | error m =>
      refine iff_of_true ?_ (Or.inl ((refused_iff _).mp ⟨m, hrun⟩))
      rw [main_of_error h hrun]
      exact ⟨fun h0 => absurd h0 one_ne_zero, fun _ => one_ne_zero, fun _ => rfl⟩
  | ok s =>
      have hstatus : (main host (name :: source :: options)).status = 0 := status_of_ok h hrun
      have hnot : ¬ Refused (tokens contents) := by
        intro href
        obtain ⟨m, hm⟩ := (refused_iff _).mpr href
        rw [hm] at hrun
        cases hrun
      rw [or_iff_right hnot]
      constructor
      · intro ht
        obtain ⟨p, e, hp, he, -⟩ := ht.success hstatus
        refine ⟨fun hrange => ht.failure (Or.inr (Or.inl hrange)) hstatus, p, e, hp, he, ?_⟩
        by_contra htakes
        exact ht.failure (Or.inr (Or.inr ⟨p, e, hp, he, htakes⟩)) hstatus
      · rintro ⟨hrange, p, e, hp, he, htakes⟩
        have hsource : ¬ (¬ IsProgram contents ∨ OperandOutOfRange contents) := by
          rintro (hprogram | hout)
          · exact hprogram ⟨p, hp⟩
          · exact hrange hout
        constructor
        · intro _
          refine ⟨p, e, hp, he, ?_⟩
          rw [main_of_tokens h hp he, writeElf_of_takes htakes]
        · rintro (hprogram | hout | ⟨p', e', hp', he', hfails⟩)
          · exact absurd (Or.inl hprogram) hsource
          · exact absurd (Or.inr hout) hsource
          · have hsame : p'.reductions = p.reductions := by
              have hruns : yyparse p'.tokens = yyparse p.tokens := by rw [← hp', ← hp]
              rw [yyparse_tokens, yyparse_tokens] at hruns
              exact congrArg Run.reductions hruns
            rw [Program.assemble, Program.parse, hsame] at he'
            rw [Program.assemble, Program.parse, he'] at he
            cases he
            exact absurd htakes hfails
        · intro hout
          exact absurd hout hsource

/-- A host with one source, and room for a megabyte. -/
def roomy (contents : List Byte) : Host := ⟨fun _ => some contents, fun _ => true, fun _ => 2 ^ 20⟩

/-- A source of one instruction. -/
theorem ret_tellsTruth :
    TellsTruth (roomy (str "a: ret")) (outFilename (str "a.s") []) (str "a: ret")
      (main (roomy (str "a: ret")) [str "riscvass", str "a.s"]) := by
  have htokens : tokens (str "a: ret") = [.symbol (sym "a"), .colon, .ret] := by decide +kernel
  have hlexemes : ∀ x ∈ lexemes (str "a: ret"), ¬ ∃ ival, x.token = .imm ival := by
    rintro x hx ⟨ival, himm⟩
    have hmem : x.token ∈ tokens (str "a: ret") := List.mem_map_of_mem hx
    rw [htokens, himm] at hmem
    simp at hmem
  refine (tellsTruth_iff _ _ _ _ _ rfl).mpr (Or.inr ⟨?_, ?_⟩)
  · rintro (⟨x, hx, himm, -⟩ | ⟨p, hp, hfar⟩)
    · exact hlexemes x hx himm
    · refine hfar fun i insnType label s v hsite href => ?_
      have hrun : yyparse p.tokens = ⟨[.instruction (.psuedo .ret), .labelInstructions (sym "a")],
          true, 0⟩ := by
        rw [← hp, htokens]
        rfl
      rw [yyparse_tokens] at hrun
      have hreductions : p.reductions = [.instruction (.psuedo .ret), .labelInstructions (sym "a")] :=
        congrArg Run.reductions hrun
      obtain ⟨pre, post, hsplit, -⟩ := hsite.reference
      have hmem : Reduction.instruction i ∈ p.reductions := by
        rw [hsplit]
        simp
      rw [hreductions] at hmem
      have hi : i = .psuedo .ret := by simpa using hmem
      rw [hi] at href
      cases href
  · refine ⟨program (.labelInstructions (sym "a") (block (.psuedo .ret) [])) [], _, htokens, rfl, rfl,
      ?_⟩
    decide +kernel

/-- A stray parenthesis behind a block is a syntax error, and 0 is returned. -/
theorem stray_parenthesis : ¬ ∀ (host : Host) name source options contents,
    host.files source = some contents →
      TellsTruth host (outFilename source options) contents
        (main host (name :: source :: options)) := by
  intro h
  have htruth := h (roomy (str "a: ret )")) (str "riscvass") (str "a.s") [] (str "a: ret )") rfl
  have htokens : tokens (str "a: ret )") = [.symbol (sym "a"), .colon, .ret, .parenClose] := by
    decide +kernel
  have hvalue : (yyparse (tokens (str "a: ret )"))).value = 1 := by
    rw [htokens]
    rfl
  have hrun : ∃ s, parseReductions (yyparse (tokens (str "a: ret )"))).reductions = .ok s := by
    rw [htokens]
    exact ⟨_, rfl⟩
  obtain ⟨s, hs⟩ := hrun
  refine htruth.failure (Or.inl ?_) (status_of_ok rfl hs)
  rintro ⟨p, hp⟩
  rw [hp, yyparse_tokens] at hvalue
  cases hvalue

end RiscvAssembler
