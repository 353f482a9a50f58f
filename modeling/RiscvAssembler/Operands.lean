import RiscvAssembler.InstructionWords
import RiscvAssembler.TextGrowth
import RiscvAssembler.Main

/-!
# Operands that need a check

Three operands can ask for what their field does not hold: a symbol that has no value yet, a label that
is too far away, and a literal that is too large.

* `symbolsSafe_iff`: a symbol operand is safe exactly when it is not used twice. The record that the
  first use makes is never resolved, and the second takes it for one that is.
* `refusesFar_iff`: a program with a label out of reach is refused exactly when some other check ends
  the run, since nothing checks a displacement.
* `literalRight_iff`: a literal is treated right exactly when it is in range, or is still out of range
  when it has been narrowed to an `int`.
-/

namespace RiscvAssembler

open Bytes Lex Runs ParserState Scanner Bison

/-! ## Symbols -/

/-- From `s` to `t`, the statement `op rd, rs1, symbol` leaves the code alone and has a record of the
symbol that says that it is not resolved, or it appends a word with the resolved symbol's offset. -/
def SymbolSafe (symbol : Symbol) (s t : ParserState) : Prop :=
  (t.elf.secText = s.elf.secText ∧ t.elf.symbolExists symbol.text = true ∧
      t.elf.symbolResolved symbol.text = false) ∨
    ∃ w, t.elf.secText.data = s.elf.secText.data ++ [w] ∧
      s.elf.symbolResolved symbol.text = true ∧
      (Rv32i.immI w).toInt = 4 * (s.elf.resolveSymbol symbol.text).offsetIdx.toNat

/-- Every symbol operand of the program that the parser comes to is safe. -/
def Program.SymbolsSafe (p : Program) : Prop :=
  ∀ pre op rd rs1 symbol post s t,
    p.reductions = pre ++ .instruction (.iType op rd rs1 (.symbol symbol)) :: post →
    run step start pre = .ok s →
    step s (.instruction (.iType op rd rs1 (.symbol symbol))) = .ok t → SymbolSafe symbol s t

/-- No symbol operand of the program that the parser comes to has been one before. -/
def Program.SymbolsOnce (p : Program) : Prop :=
  ∀ pre op rd rs1 symbol post s,
    p.reductions = pre ++ .instruction (.iType op rd rs1 (.symbol symbol)) :: post →
    run step start pre = .ok s → ∀ r ∈ pre, r.symbolOperand ≠ some symbol.text

/-- The record that the first use of a symbol makes. -/
def ParserState.unresolvedRecord (s : ParserState) : Sym :=
  ⟨s.elf.getSectionIdx s.currentSection, unresolvedIdx.setWidth 32, unresolvedIdx, false, false⟩

/-- Every record bears the mark of an unresolved symbol. -/
def NoneResolved (s : ParserState) : Prop :=
  ∀ y record, s.elf.symbols.lookup y = some record →
    record.resolved = false ∧ record.offsetIdx = unresolvedIdx.setWidth 32

theorem NoneResolved.symbolResolved {s : ParserState} (hs : NoneResolved s) (y : Str) :
    s.elf.symbolResolved y = false := by
  unfold ELF32.symbolResolved
  cases hy : s.elf.symbols.lookup y with
  | none => rfl
  | some record => exact (hs y record hy).1

/-- An instruction leaves the symbols alone, or enters such a record. -/
theorem symbolsAfter_cases (s : ParserState) (i : Instruction) :
    symbolsAfter s i = s.elf.symbols ∨
      ∃ y, symbolsAfter s i = s.elf.symbols.insert y s.unresolvedRecord := by
  cases i with
  | iType op rd rs1 imm =>
      cases imm with
      | symbol symbol =>
          by_cases hex : s.elf.symbolExists symbol.text = true
          · exact Or.inl (if_pos hex)
          · exact Or.inr ⟨symbol.text, if_neg hex⟩
      | _ => exact Or.inl rfl
  | _ => exact Or.inl rfl

/-- No reduction resolves a symbol. -/
theorem noneResolved_step {s t : ParserState} {r : Reduction} (hs : NoneResolved s)
    (h : step s r = .ok t) : NoneResolved t := by
  intro y record hy
  have hsame : t.elf.symbols = s.elf.symbols →
      record.resolved = false ∧ record.offsetIdx = unresolvedIdx.setWidth 32 := by
    intro heq
    rw [heq] at hy
    exact hs y record hy
  cases r with
  | instruction i =>
      have hsym := (step_instruction h).symbols
      rcases symbolsAfter_cases s i with hkept | ⟨x, hnew⟩
      · exact hsame (hsym.trans hkept)
      · rw [hsym, hnew] at hy
        by_cases hyx : y = x
        · rw [hyx, AList.lookup_insert] at hy
          cases hy
          exact ⟨rfl, rfl⟩
        · rw [AList.lookup_insert_ne hyx] at hy
          exact hs y record hy
  | _ => exact hsame (step_kept h (by simp)).2.2

/-- **No record is ever resolved.** -/
theorem noneResolved_run {rs : List Reduction} {u : ParserState} (h : run step start rs = .ok u) :
    NoneResolved u :=
  run_invariant NoneResolved (fun _ _ _ => noneResolved_step) (fun y _ hy => by cases hy) h

/-- The immediate for a symbol that has a record is -1088: the mark, times four, in twelve bits. -/
theorem emitted_symbol_of_exists {s : ParserState} (hs : NoneResolved s) (op : OpcodeImmediate)
    (rd rs1 : Reg) {symbol : Symbol} (h : s.elf.symbolExists symbol.text = true) :
    ∃ w, emitted s (.iType op rd rs1 (.symbol symbol)) = [w] ∧ (Rv32i.immI w).toInt = -1088 := by
  have hoffset : (s.elf.resolveSymbol symbol.text).offsetIdx = unresolvedIdx.setWidth 32 := by
    rw [s.symbolExists_eq, symbolValue, Option.isSome_map, Option.isSome_iff_exists] at h
    obtain ⟨record, hrecord⟩ := h
    unfold ELF32.resolveSymbol
    rw [hrecord]
    exact (hs _ record hrecord).2
  refine ⟨_, if_pos h, ?_⟩
  rw [immI_emitIType, hoffset]
  decide

/-- A symbol operand is safe iff its symbol has no record. -/
theorem symbolSafe_iff {s t : ParserState} {op : OpcodeImmediate} {rd rs1 : Reg} {symbol : Symbol}
    (hs : NoneResolved s) (h : step s (.instruction (.iType op rd rs1 (.symbol symbol))) = .ok t) :
    SymbolSafe symbol s t ↔ s.elf.symbolExists symbol.text = false := by
  have htext := (step_instruction h).text
  constructor
  · intro hsafe
    rcases hsafe with ⟨hsame, -, -⟩ | ⟨w, -, hresolved, -⟩
    · by_contra hex
      rw [Bool.not_eq_false] at hex
      obtain ⟨w, hw, -⟩ := emitted_symbol_of_exists hs op rd rs1 hex
      rw [hsame, hw, List.self_eq_append_right] at htext
      cases htext
    · rw [hs.symbolResolved] at hresolved
      cases hresolved
  · intro hnew
    refine Or.inl ⟨?_, ?_, (noneResolved_step hs h).symbolResolved symbol.text⟩
    · have hnot : ¬ s.elf.symbolExists symbol.text = true := by
        rw [hnew]
        exact Bool.false_ne_true
      cases (if_neg hnot).symm.trans h
      rfl
    · exact (symbolExists_instruction h symbol.text).mpr (Or.inr rfl)

/-- **Which programs use symbol operands safely**: those that use none of them twice. -/
theorem Program.symbolsSafe_iff (p : Program) : p.SymbolsSafe ↔ p.SymbolsOnce := by
  have hrecord : ∀ {pre s} (symbol : Symbol), run step start pre = .ok s →
      (s.elf.symbolExists symbol.text = false ↔ ∀ r ∈ pre, r.symbolOperand ≠ some symbol.text) := by
    intro pre s symbol hs
    rw [← Bool.not_eq_true, symbolExists_iff hs]
    simp only [not_exists, not_and, ne_eq]
  constructor
  · intro hsafe pre op rd rs1 symbol post s hsplit hs
    obtain ⟨t, ht⟩ := (step_instruction_ok_iff s (.iType op rd rs1 (.symbol symbol))).mpr trivial
    have hone := hsafe pre op rd rs1 symbol post s t hsplit hs ht
    exact (hrecord symbol hs).mp ((symbolSafe_iff (noneResolved_run hs) ht).mp hone)
  · intro honce pre op rd rs1 symbol post s t hsplit hs ht
    apply (symbolSafe_iff (noneResolved_run hs) ht).mpr
    exact (hrecord symbol hs).mpr (honce pre op rd rs1 symbol post s hsplit hs)

/-- `a: addi x1, x2, hello`, twice. -/
def hello : Program :=
  program (.labelInstructions (sym "a")
    (block (.iType .addi 1 2 (.symbol (sym "hello")))
      [.iType .addi 1 2 (.symbol (sym "hello"))])) []

/-- The second use of a symbol takes the record of the first for one that is resolved. -/
theorem hello_not_symbolsSafe : ¬ ∀ p : Program, p.SymbolsSafe := by
  intro h
  have honce := (hello.symbolsSafe_iff).mp (h hello)
  have hfresh := honce [.instruction (.iType .addi 1 2 (.symbol (sym "hello")))] .addi 1 2 (sym "hello")
    [.labelInstructions (sym "a")] _ rfl rfl
  exact hfresh _ List.mem_cons_self rfl

/-! ## Labels out of reach -/

/-- If some displacement of the program is out of range, an action ends the run, and every source of the
program leaves the files alone. -/
def Program.RefusesFar (p : Program) : Prop :=
  ¬ p.DisplacementsInRange →
    (∃ m, p.parse = .error m) ∧
      ∀ (host : Host) name source options contents, host.files source = some contents →
        Scanner.tokens contents = p.tokens → main host (name :: source :: options) = ⟨1, [], host.files⟩

/-- Some instruction that the parser comes to fails the range check of its own action. -/
def Program.Stops (p : Program) : Prop :=
  ∃ pre i post s, p.reductions = pre ++ .instruction i :: post ∧ run step start pre = .ok s ∧
    ¬ i.Accepted s

/-- An action ends the run of a program iff that happens. -/
theorem Program.stops_iff (p : Program) : (∃ m, p.parse = .error m) ↔ p.Stops := by
  unfold Program.parse parseReductions
  rw [run_eq_error_iff]
  constructor
  · rintro ⟨pre, r, post, s, hsplit, hs, hfail⟩
    cases r with
    | instruction i =>
        rw [step_instruction_ok_iff] at hfail
        exact ⟨pre, i, post, s, hsplit, hs, hfail⟩
    | _ => exact absurd ⟨_, rfl⟩ hfail
  · rintro ⟨pre, i, post, s, hsplit, hs, hi⟩
    refine ⟨pre, .instruction i, post, s, hsplit, hs, ?_⟩
    rw [step_instruction_ok_iff]
    exact hi

/-- **Which programs with a label out of reach are refused**: those with another operand that is. -/
theorem Program.refusesFar_iff (p : Program) :
    p.RefusesFar ↔ p.DisplacementsInRange ∨ p.Stops := by
  constructor
  · intro h
    by_cases hrange : p.DisplacementsInRange
    · exact Or.inl hrange
    · exact Or.inr (p.stops_iff.mp (h hrange).1)
  · intro h hfar
    obtain ⟨m, hm⟩ := p.stops_iff.mpr (h.resolve_left hfar)
    refine ⟨⟨m, hm⟩, fun host name source options contents hfile htokens => ?_⟩
    apply main_of_error (m := m) hfile
    rw [htokens, yyparse_tokens]
    exact hm

/-- `a:`, `n` times `mv x0, x0`, and `beq x0, x0, a`. -/
def far (n : ℕ) : Program :=
  program (.labelInstructions (sym "a")
    ⟨List.replicate n (.psuedo (.mov 0 0)) ++ [.branch .beq 0 0 (sym "a")], by simp⟩) []

/-- Moves are accepted, and append a word each. -/
theorem run_moves (n : ℕ) (s : ParserState) :
    ∃ t, run step s ((List.replicate n (.psuedo (.mov 0 0))).map .instruction) = .ok t ∧
      t.elf.secText.data.length = s.elf.secText.data.length + n := by
  induction n generalizing s with
  | zero => exact ⟨s, rfl, rfl⟩
  | succ n ih =>
      obtain ⟨t, ht, hlen⟩ := ih (s.movAction 0 0)
      refine ⟨t, run_cons_eq_ok.mpr ⟨_, rfl, ht⟩, ?_⟩
      have hone : (s.movAction 0 0).elf.secText.data.length = s.elf.secText.data.length + 1 :=
        List.length_append
      omega

/-- The program is accepted, whatever the distance. -/
theorem far_accepted {n : ℕ} (hn : 1024 < n) :
    ¬ (far n).DisplacementsInRange ∧ ∃ s, (far n).parse = .ok s := by
  obtain ⟨s, hs, hlen⟩ := run_moves n start
  have hsplit : (far n).reductions =
      (List.replicate n (.psuedo (.mov 0 0))).map .instruction ++
        .instruction (.branch .beq 0 0 (sym "a")) :: [.labelInstructions (sym "a")] := by
    simp [far, program, Program.reductions, reductionsOf, Statement.reductions]
  constructor
  · intro h
    have hrange : DisplacementRange .bType _ :=
      h (.branch .beq 0 0 (sym "a")) .bType (sym "a") s start
        ⟨⟨_, rfl⟩, ⟨_, _, hsplit, hs⟩, ⟨[], _, [], rfl, rfl⟩⟩ rfl
    rw [hlen] at hrange
    obtain ⟨hlo, -⟩ := hrange
    have hstart : start.elf.secText.data.length = 0 := rfl
    rw [hstart] at hlo
    push_cast at hlo
    omega
  · show ∃ t, run step start (far n).reductions = .ok t
    rw [hsplit]
    exact ⟨_, run_split.mpr ⟨s, _, hs, rfl, rfl⟩⟩

/-- A `beq` to a label 4100 bytes behind is accepted. -/
theorem far_not_refused : ¬ ∀ p : Program, p.RefusesFar := by
  intro h
  obtain ⟨hfar, s, hs⟩ := far_accepted (n := 1025) (by decide)
  obtain ⟨⟨m, hm⟩, -⟩ := h (far 1025) hfar
  rw [hs] at hm
  cases hm

/-! ## Literals -/

/-- Behind statements and instructions of a block, whose reductions are `pre`, the source has
`op rd, rs1, x` with a literal `x`. -/
def LiteralAt (contents : List Byte) (pre : List Reduction) (op : OpcodeImmediate) (rd rs1 : Reg)
    (x : Lexeme Byte Token) (ival : Word) : Prop :=
  ∃ xs ys ss l is, lexemes contents = xs ++ x :: ys ∧
    xs.map Lexeme.token = tokensOf ss ++ .symbol l :: .colon ::
      ((is : List Instruction).flatMap Instruction.tokens ++
        [op.token, .reg rd, .comma, .reg rs1, .comma]) ∧
    x.token = .imm ival ∧ pre = reductionsOf ss ++ is.map .instruction

/-- The value fits a 12-bit field. -/
def Fits12 (v : ℤ) : Prop := -2048 ≤ v ∧ v ≤ 2047

/-- The value fits a `long`, and is still outside of a 12-bit field when it is cut to an `int`. -/
def CutOutside (v : ℤ) : Prop := (-2 ^ 63 ≤ v ∧ v < 2 ^ 63) ∧ 2 ^ 12 ≤ (v + 2 ^ 11) % 2 ^ 32

/-- In state `s`, an instruction with a literal of value `v` is accepted iff `v` fits, and then it
appends a word with that immediate; otherwise the program ends with a message and writes nothing. -/
structure LiteralRight (host : Host) (s : ParserState) (i : Instruction) (v : ℤ) (r : Result) :
    Prop where
  accepted : (∃ t, step s (.instruction i) = .ok t) ↔ Fits12 v
  encoded : ∀ t, step s (.instruction i) = .ok t →
    ∃ w, t.elf.secText.data = s.elf.secText.data ++ [w] ∧ (Rv32i.immI w).toInt = v
  refused : ¬ Fits12 v → r = ⟨1, [], host.files⟩

/-- A literal is taken for one that fits iff it does, as a `long` that is cut to an `int`. -/
theorem fits12_narrowed (v : ℤ) :
    Fits12 (narrowed v).toInt ↔ (max (-2 ^ 63) (min (2 ^ 63 - 1) v) + 2 ^ 11) % 2 ^ 32 < 2 ^ 12 := by
  unfold Fits12 narrowed
  have hcut := toNat_cut (max (-2 ^ 63) (min (2 ^ 63 - 1) v))
  rw [BitVec.toInt_eq_toNat_cond]
  split_ifs <;> omega

/-- The literals that are refused: a `long` keeps its value, and of the others the low bits fit. -/
theorem not_fits12_narrowed (v : ℤ) : ¬ Fits12 (narrowed v).toInt ↔ CutOutside v := by
  rw [fits12_narrowed, CutOutside]
  omega

/-- A value that fits is not changed. -/
theorem toInt_narrowed {v : ℤ} (h : Fits12 v) : (narrowed v).toInt = v := by
  obtain ⟨hlo, hhi⟩ := h
  unfold narrowed
  rw [min_eq_right (by omega), max_eq_right (by omega)]
  have hcut := toNat_cut v
  rw [BitVec.toInt_eq_toNat_cond]
  split_ifs <;> omega

/-- The literal is one of the lexemes, and its instruction one that the source starts with. -/
theorem LiteralAt.upTo {contents : List Byte} {pre : List Reduction} {op : OpcodeImmediate}
    {rd rs1 : Reg} {x : Lexeme Byte Token} {ival : Word}
    (h : LiteralAt contents pre op rd rs1 x ival) :
    ival = narrowed (literalValue x.text) ∧
      UpTo (tokens contents) pre (.iType op rd rs1 (.imm ival)) := by
  obtain ⟨xs, ys, ss, l, is, hlexemes, hxs, himm, rfl⟩ := h
  constructor
  · have hmem : x ∈ lexemes contents := by
      rw [hlexemes]
      simp
    exact imm_eq_narrowed hmem himm
  · refine ⟨ss, l, is, ys.map Lexeme.token, ?_, rfl⟩
    unfold tokens
    rw [hlexemes, List.map_append, List.map_cons, hxs, himm]
    simp [Instruction.tokens, ImmediateKind.tokens]

/-- **Which literals are treated right**: those that fit, and those that a cut leaves out of range. -/
theorem literalRight_iff (host : Host) (name source : Str) (options : List Str)
    (contents : List Byte) (pre : List Reduction) (op : OpcodeImmediate) (rd rs1 : Reg)
    (x : Lexeme Byte Token) (ival : Word) (s : ParserState)
    (hfile : host.files source = some contents) (hx : LiteralAt contents pre op rd rs1 x ival)
    (hs : run step start pre = .ok s) :
    LiteralRight host s (.iType op rd rs1 (.imm ival)) (literalValue x.text)
        (main host (name :: source :: options)) ↔
      Fits12 (literalValue x.text) ∨ CutOutside (literalValue x.text) := by
  obtain ⟨hival, hupTo⟩ := hx.upTo
  have haccepted : (∃ t, step s (.instruction (.iType op rd rs1 (.imm ival))) = .ok t) ↔
      Fits12 ival.toInt := by
    rw [step_instruction_ok_iff]
    exact isWithinRange12b_iff ival
  rw [← not_fits12_narrowed, ← hival]
  constructor
  · intro h
    by_cases hfits : Fits12 (literalValue x.text)
    · exact Or.inl hfits
    · refine Or.inr fun hcut => ?_
      exact hfits (h.accepted.mp (haccepted.mpr hcut))
  · intro h
    have hsame : Fits12 ival.toInt ↔ Fits12 (literalValue x.text) := by
      constructor
      · exact fun hcut => h.resolve_right (not_not_intro hcut)
      · intro hfits
        rw [hival, toInt_narrowed hfits]
        exact hfits
    constructor
    · exact haccepted.trans hsame
    · intro t ht
      have hfits := hsame.mp (haccepted.mp ⟨t, ht⟩)
      refine ⟨_, (step_instruction ht).text, ?_⟩
      rw [immI_emitIType, literal_eq, hival, toInt_narrowed hfits]
      obtain ⟨hlo, hhi⟩ := hfits
      rw [BitVec.toInt_ofInt]
      exact Int.bmod_eq_of_le (by omega) (by omega)
    · intro hout
      have hrefused : ¬ (Instruction.iType op rd rs1 (.imm ival)).Accepted s := by
        rw [← step_instruction_ok_iff, haccepted, hsame]
        exact hout
      obtain ⟨m, hm⟩ := (refused_iff _).mpr ⟨pre, _, s, hupTo, hs, hrefused⟩
      exact main_of_error hfile hm

/-- The lexemes of `a: addi x1, x2,`. -/
def addiFront : List (Lexeme Byte Token) :=
  [⟨str "a", .symbol (sym "a")⟩, ⟨str ":", .colon⟩, ⟨str "addi", .addi⟩, ⟨str "x1", .reg 1⟩,
    ⟨str ",", .comma⟩, ⟨str "x2", .reg 2⟩, ⟨str ",", .comma⟩]

/-- The literal of the one instruction of a source. -/
theorem literalAt_addi {contents : List Byte} {x : Lexeme Byte Token} {ival : Word}
    (h : lexemes contents = addiFront ++ [x]) (himm : x.token = .imm ival) :
    LiteralAt contents [] .addi 1 2 x ival :=
  ⟨addiFront, [], [], sym "a", [], h, rfl, himm, rfl⟩

/-- `a: addi x1, x2, 5`. -/
theorem five_literalRight : LiteralRight (roomy (str "a: addi x1, x2, 5")) start
    (.iType .addi 1 2 (.imm 5)) (literalValue (str "5"))
    (main (roomy (str "a: addi x1, x2, 5")) [str "riscvass", str "a.s"]) := by
  have hx : LiteralAt (str "a: addi x1, x2, 5") [] .addi 1 2 ⟨str "5", .imm 5⟩ 5 :=
    literalAt_addi (by decide +kernel) rfl
  have hfits : Fits12 (literalValue (str "5")) := by
    unfold Fits12
    decide
  exact (literalRight_iff _ _ _ _ _ [] .addi 1 2 ⟨str "5", .imm 5⟩ 5 start rfl hx rfl).mpr
    (Or.inl hfits)

/-- `addi x1, x2, 4294967301` is accepted: its `int` is 5. -/
theorem wrapped_literal : ¬ ∀ (host : Host) name source options contents pre op rd rs1 x ival s,
    host.files source = some contents → LiteralAt contents pre op rd rs1 x ival →
      run step start pre = .ok s →
      LiteralRight host s (.iType op rd rs1 (.imm ival)) (literalValue x.text)
        (main host (name :: source :: options)) := by
  intro h
  have hx : LiteralAt (str "a: addi x1, x2, 4294967301") [] .addi 1 2 ⟨str "4294967301", .imm 5⟩ 5 :=
    literalAt_addi (by decide +kernel) rfl
  have hright := h (roomy (str "a: addi x1, x2, 4294967301")) (str "riscvass") (str "a.s") [] _ [] .addi
    1 2 _ 5 start rfl hx rfl
  have hfits : Fits12 (literalValue (str "4294967301")) := hright.accepted.mp ⟨_, rfl⟩
  unfold Fits12 at hfits
  revert hfits
  decide

end RiscvAssembler
