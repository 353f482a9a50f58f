import RiscvAssembler.FixupPass

/-!
# One word for every instruction

`Instruction.width` is the number of machine instructions that a statement stands for.
`Program.NoneLost` says that the words of a program's `.text` are, in source order, those of its
instruction statements, `width` for each.

* `length_emitted_eq_width_iff`: an instruction emits its width exactly when its operand is one that
  its action handles (`Instruction.Appends`).
* `noneLost_iff`: a program loses nothing exactly when all its instructions are of that kind: no
  `la`, no `%hi`, no symbol used as an immediate for the first time, no `j` to a label that is not
  recorded yet.
-/

namespace RiscvAssembler

open Runs ParserState

namespace Instruction

/-- The number of machine instructions: `la` is `auipc` and `addi`. -/
def width : Instruction → ℕ
  | .psuedo (.la _ _) => 2
  | _ => 1

/-- The operand is one for which the action emits the instruction, given the reductions made before:
no `%hi`, a symbol only if it has been an operand before, a jump only to a recorded label. -/
def Appends (pre : List Reduction) : Instruction → Prop
  | .iType _ _ _ (.modifier _) => False
  | .iType _ _ _ (.symbol symbol) => ∃ r ∈ pre, r.symbolOperand = some symbol.text
  | .psuedo (.la _ _) => False
  | .psuedo (.jump symbol) => ∃ r ∈ pre, r.records = some symbol.text
  | _ => True

/-- The words that an instruction emits are as many as it stands for iff its action handles it. -/
theorem length_emitted_eq_width_iff {pre : List Reduction} {s : ParserState}
    (hs : run step start pre = .ok s) (i : Instruction) :
    (emitted s i).length = i.width ↔ i.Appends pre := by
  cases i with
  | rType op rd rs1 rs2 => exact iff_of_true rfl trivial
  | iType op rd rs1 imm =>
      cases imm with
      | imm ival => exact iff_of_true rfl trivial
      | modifier hi => exact iff_of_false (by simp [emitted, width]) id
      | symbol symbol =>
          simp only [Appends, ← symbolExists_iff hs, emitted, width]
          split_ifs with hsym <;> simp [hsym]
  | loadStore op r imm base =>
      simp only [emitted, width, Appends]
      split_ifs <;> simp
  | branch op rs1 rs2 symbol => exact iff_of_true rfl trivial
  | opcode op => exact iff_of_true rfl trivial
  | psuedo p =>
      cases p with
      | la rd symbol => exact iff_of_false (by simp [emitted, width]) id
      | jump symbol =>
          simp only [Appends, ← labelExists_iff hs, ELF32.labelExists_iff, emitted, width]
          cases s.elf.resolvedLabels.lookup symbol.text <;> simp
      | mov rd rs => exact iff_of_true rfl trivial
      | ret => exact iff_of_true rfl trivial

end Instruction

/-- The instruction statements among some reductions, in source order. -/
def instructionsOf (rs : List Reduction) : List Instruction :=
  rs.filterMap fun
    | .instruction i => some i
    | _ => none

/-- The machine instructions that the instruction statements among some reductions stand for. -/
def widthOf (rs : List Reduction) : ℕ := ((instructionsOf rs).map Instruction.width).sum

theorem widthOf_append (rs rs' : List Reduction) :
    widthOf (rs ++ rs') = widthOf rs + widthOf rs' := by
  simp [widthOf, instructionsOf]

/-- No instruction of the program is lost, duplicated or moved: each appends its words behind those
of the instructions before it, and the final `.text` has these words and no others. -/
structure Program.NoneLost (p : Program) (e : ELF32) : Prop where
  appended : ∀ pre i post s t, p.reductions = pre ++ .instruction i :: post →
    run step start pre = .ok s → step s (.instruction i) = .ok t →
    s.elf.secText.data.length = widthOf pre ∧
      ∃ ws, t.elf.secText.data = s.elf.secText.data ++ ws ∧ ws.length = i.width
  total : e.secText.data.length = widthOf p.reductions

/-- Every instruction of the program is of a kind that its action emits. -/
def Program.AllAppend (p : Program) : Prop :=
  ∀ pre i post, p.reductions = pre ++ .instruction i :: post → i.Appends pre

/-- A reduction in a program whose instructions are all emitted appends its width. -/
theorem length_step_of_allAppend {p : Program} (hp : p.AllAppend) {pre post : List Reduction}
    {r : Reduction} (hsplit : p.reductions = pre ++ r :: post) {s t : ParserState}
    (hs : run step start pre = .ok s) (h : step s r = .ok t) :
    t.elf.secText.data.length = s.elf.secText.data.length + widthOf [r] := by
  rw [step_text h, List.length_append]
  cases r with
  | instruction i =>
      have hlen := (i.length_emitted_eq_width_iff hs).mpr (hp pre i post hsplit)
      simp [emittedBy, hlen, widthOf, instructionsOf]
  | _ => simp [emittedBy, widthOf, instructionsOf]

/-- In such a program the length of `.text` is at all times the number of machine instructions that
the statements so far stand for. -/
theorem length_text_of_allAppend {p : Program} (hp : p.AllAppend) {pre post : List Reduction}
    (hsplit : p.reductions = pre ++ post) {s : ParserState} (hs : run step start pre = .ok s) :
    s.elf.secText.data.length = widthOf pre := by
  refine run_history (fun pre s => ∀ post, p.reductions = pre ++ post →
    s.elf.secText.data.length = widthOf pre) (fun _ _ => rfl) ?_ hs post hsplit
  intro pre s r t hs ih h post hsplit
  rw [List.append_assoc] at hsplit
  rw [length_step_of_allAppend hp hsplit hs h, ih _ hsplit, widthOf_append]

/-- **Which programs keep all of their instructions.** -/
theorem Program.noneLost_iff (p : Program) (e : ELF32) (h : p.assemble = .ok e) :
    p.NoneLost e ↔ p.AllAppend := by
  obtain ⟨u, hu, he⟩ := bind_eq_ok.mp h
  cases he
  constructor
  · intro hlost pre i post hsplit
    have hrun : run step start (pre ++ .instruction i :: post) = .ok u := hsplit ▸ hu
    obtain ⟨s, t, hs, ht, -⟩ := run_split.mp hrun
    obtain ⟨-, ws, htext, hws⟩ := hlost.appended pre i post s t hsplit hs ht
    rw [(step_instruction ht).text] at htext
    rw [← i.length_emitted_eq_width_iff hs, List.append_cancel_left htext, hws]
  · intro hall
    constructor
    · intro pre i post s t hsplit hs ht
      exact ⟨length_text_of_allAppend hall hsplit hs, emitted s i, (step_instruction ht).text,
        (i.length_emitted_eq_width_iff hs).mpr (hall pre i post hsplit)⟩
    · rw [ELF32.length_resolveUnresolvedInstructions]
      exact length_text_of_allAppend hall (List.append_nil _).symm hu

/-- `here: beq x5, x6, here` and `ret`. -/
def spin : Program :=
  program (.labelInstructions (sym "here") (block (.branch .beq 5 6 (sym "here")) [.psuedo .ret])) []

/-- A program with a branch to itself keeps its two instructions. -/
theorem spin_noneLost : ∃ e, spin.assemble = .ok e ∧ spin.NoneLost e := by
  obtain ⟨e, he⟩ := exists_of_isOk (show spin.assemble.isOk = true by decide)
  refine ⟨e, he, (spin.noneLost_iff e he).mpr ?_⟩
  intro pre i post hsplit
  have hmem : Reduction.instruction i ∈ spin.reductions := by simp [hsplit]
  simp only [spin, program, block, Program.reductions, reductionsOf, Statement.reductions,
    List.flatMap_cons, List.flatMap_nil, List.map_cons, List.map_nil, List.mem_append,
    List.mem_cons, List.not_mem_nil, Reduction.instruction.injEq, reduceCtorEq, or_false] at hmem
  rcases hmem with rfl | rfl <;> trivial

/-- `strlen.s` has eight instructions and seven words: its `j loop` comes before `loop` is
recorded. -/
theorem strlen_not_noneLost : ¬ ∀ (p : Program) e, p.assemble = .ok e → p.NoneLost e := by
  intro h
  obtain ⟨e, he⟩ := exists_of_isOk (show strlen.assemble.isOk = true by decide)
  have htotal := (h strlen e he).total
  rw [← strlen.text_eq he] at htotal
  revert htotal
  decide

end RiscvAssembler
