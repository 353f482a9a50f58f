import RiscvAssembler.Scanner
import RiscvAssembler.Lib.Lr

/-!
# The parser that bison makes of the grammar (`riscvass.y`)

The automaton has the default reductions of bison's LALR tables: in a state with a reduction, whatever
cannot be shifted reduces. So a syntax error behind a statement is found only after `program` has been
reduced and its action has run, and one inside of a statement before.

* `Program.tokens`: the text of a derivation.
* `automaton`, `yyparse`: the automaton and its run over the tokens of a file.
* `yyparse_tokens` and `yyparse_sound`: what is accepted are the programs, with their reductions.
* `yyparse_reads`: what was read and reduced wherever the run ends.
-/

namespace RiscvAssembler

open Lr Lr.Item

/-! ## The tokens of a derivation -/

/-- Source: `riscvass.y`, the right-hand sides of `opcode`. -/
def Opcode.token : Opcode → Token
  | .sltiu => .sltiu
  | .ecall => .ecall
  | .add => .add
  | .sub => .sub

/-- Source: `riscvass.y`, the right-hand sides of `opcode_load_store`. -/
def OpcodeLoadStore.token : OpcodeLoadStore → Token
  | .lb => .lb
  | .lh => .lh
  | .lw => .lw
  | .lbu => .lbu
  | .lhu => .lhu
  | .sb => .sb
  | .sh => .sh
  | .sw => .sw

/-- Source: `riscvass.y`, the right-hand sides of `opcode_immediate`. -/
def OpcodeImmediate.token : OpcodeImmediate → Token
  | .addi => .addi
  | .slti => .slti
  | .ori => .ori
  | .xori => .xori
  | .andi => .andi

/-- Source: `riscvass.y`, the right-hand side of `opcode_branch`. -/
def OpcodeBranch.token : OpcodeBranch → Token
  | .beq => .beq

/-- Source: `riscvass.y`, the right-hand sides of `immediate_kind` and `modifier`. -/
def ImmediateKind.tokens : ImmediateKind → List Token
  | .imm ival => [.imm ival]
  | .modifier hi => [.pct, .hi, .parenOpen, .symbol hi, .parenClose]
  | .symbol s => [.symbol s]

/-- Source: `riscvass.y`, the right-hand sides of `psuedo_instruction`. -/
def PsuedoInstruction.tokens : PsuedoInstruction → List Token
  | .la rd symbol => [.la, .reg rd, .comma, .symbol symbol]
  | .jump symbol => [.jump, .symbol symbol]
  | .mov rd rs => [.mov, .reg rd, .comma, .reg rs]
  | .ret => [.ret]

/-- Source: `riscvass.y`, the right-hand sides of `instruction`. -/
def Instruction.tokens : Instruction → List Token
  | .rType op rd rs1 rs2 => [op.token, .reg rd, .comma, .reg rs1, .comma, .reg rs2]
  | .iType op rd rs1 imm => [op.token, .reg rd, .comma, .reg rs1, .comma] ++ imm.tokens
  | .loadStore op r imm base =>
    [op.token, .reg r, .comma, .imm imm, .parenOpen, .reg base, .parenClose]
  | .branch op rs1 rs2 symbol =>
    [op.token, .reg rs1, .comma, .reg rs2, .comma, .symbol symbol]
  | .opcode op => [op.token]
  | .psuedo p => p.tokens

/-- Source: `riscvass.y`, the right-hand sides of `directive`. -/
def Directive.tokens : Directive → List Token
  | .sectionData => [.sectionDirective, .dData]
  | .sectionText => [.sectionDirective, .dText]
  | .text => [.dText]
  | .data => [.dData]
  | .global symbol => [.dGlobal, .symbol symbol]
  | .ascii string => [.dAscii, .string string]

/-- Source: `riscvass.y`, the right-hand sides of `statement`. -/
def Statement.tokens : Statement → List Token
  | .labelInstructions label block =>
    .symbol label :: .colon :: block.toList.flatMap Instruction.tokens
  | .labelDirective label d => .symbol label :: .colon :: d.tokens
  | .directive d => d.tokens

/-- The tokens of a list of statements. -/
def tokensOf (ss : List Statement) : List Token := ss.flatMap Statement.tokens

theorem tokensOf_cons (st : Statement) (ss : List Statement) :
    tokensOf (st :: ss) = st.tokens ++ tokensOf ss :=
  List.flatMap_cons

/-- The tokens of a program. -/
def Program.tokens (p : Program) : List Token := tokensOf p.statements

namespace Bison

/-! ## Terminals -/

def reg : Terminal Token Reg where
  put := .reg
  get
    | .reg n => some n
    | _ => none
  get_eq_some := by
    intro t n
    cases t <;> simp

def imm : Terminal Token Word where
  put := .imm
  get
    | .imm ival => some ival
    | _ => none
  get_eq_some := by
    intro t ival
    cases t <;> simp

def symbol : Terminal Token Symbol where
  put := .symbol
  get
    | .symbol s => some s
    | _ => none
  get_eq_some := by
    intro t s
    cases t <;> simp

def string : Terminal Token StringLit where
  put := .string
  get
    | .string s => some s
    | _ => none
  get_eq_some := by
    intro t s
    cases t <;> simp

/-- The terminals of `opcode`. -/
def opcode : Terminal Token Opcode :=
  oneOf Opcode.token [.sltiu, .ecall, .add, .sub] (by intro op; cases op <;> simp)
    (by intro op op' h; cases op <;> cases op' <;> first | rfl | cases h)

/-- The terminals of `opcode_load_store`. -/
def opcodeLoadStore : Terminal Token OpcodeLoadStore :=
  oneOf OpcodeLoadStore.token [.lb, .lh, .lw, .lbu, .lhu, .sb, .sh, .sw]
    (by intro op; cases op <;> simp)
    (by intro op op' h; cases op <;> cases op' <;> first | rfl | cases h)

/-- The terminals of `opcode_immediate`. -/
def opcodeImmediate : Terminal Token OpcodeImmediate :=
  oneOf OpcodeImmediate.token [.addi, .slti, .ori, .xori, .andi] (by intro op; cases op <;> simp)
    (by intro op op' h; cases op <;> cases op' <;> first | rfl | cases h)

/-- The terminal of `opcode_branch`. -/
def opcodeBranch : Terminal Token OpcodeBranch :=
  oneOf OpcodeBranch.token [.beq] (by intro op; cases op; simp)
    (by intro op op' _; cases op; cases op'; rfl)

/-! ## Items -/

/-- `immediate_kind` at the end of an instruction. -/
def immediateKindItem (k : ImmediateKind → Instruction) : Item Token Instruction :=
  .or (expect none imm fun ival => reduce (k (.imm ival))) <|
  .or
    (expect none (keyword .pct) fun _ =>
      expect none (keyword .hi) fun _ =>
      expect none (keyword .parenOpen) fun _ =>
      expect none symbol fun s =>
      expect none (keyword .parenClose) fun _ =>
      reduce (k (.modifier s)))
    (expect none symbol fun s => reduce (k (.symbol s)))

/-- `psuedo_instruction`. -/
def psuedoItem : Item Token Instruction :=
  .or
    (expect none (keyword .la) fun _ =>
      expect none reg fun rd =>
      expect none (keyword .comma) fun _ =>
      expect none symbol fun s =>
      reduce (.psuedo (.la rd s))) <|
  .or
    (expect none (keyword .jump) fun _ =>
      expect none symbol fun s =>
      reduce (.psuedo (.jump s))) <|
  .or
    (expect none (keyword .mov) fun _ =>
      expect none reg fun rd =>
      expect none (keyword .comma) fun _ =>
      expect none reg fun rs =>
      reduce (.psuedo (.mov rd rs)))
    (expect none (keyword .ret) fun _ => reduce (.psuedo .ret))

/-- `opcode register COMMA register COMMA register` behind the opcode, and `opcode`. -/
def rTypeItem (op : Opcode) : Item Token Instruction :=
  expect (some (.opcode op)) reg fun rd =>
  expect none (keyword .comma) fun _ =>
  expect none reg fun rs1 =>
  expect none (keyword .comma) fun _ =>
  expect none reg fun rs2 =>
  reduce (.rType op rd rs1 rs2)

/-- `opcode_immediate register COMMA register COMMA immediate_kind` behind the opcode. -/
def iTypeItem (op : OpcodeImmediate) : Item Token Instruction :=
  expect none reg fun rd =>
  expect none (keyword .comma) fun _ =>
  expect none reg fun rs1 =>
  expect none (keyword .comma) fun _ =>
  immediateKindItem fun imm => .iType op rd rs1 imm

/-- `opcode_load_store register COMMA IMM PAREN_OPEN register PAREN_CLOSE` behind the opcode. -/
def loadStoreItem (op : OpcodeLoadStore) : Item Token Instruction :=
  expect none reg fun r =>
  expect none (keyword .comma) fun _ =>
  expect none imm fun ival =>
  expect none (keyword .parenOpen) fun _ =>
  expect none reg fun base =>
  expect none (keyword .parenClose) fun _ =>
  reduce (.loadStore op r ival base)

/-- `opcode_branch register COMMA register COMMA SYMBOL` behind the opcode. -/
def branchItem (op : OpcodeBranch) : Item Token Instruction :=
  expect none reg fun rs1 =>
  expect none (keyword .comma) fun _ =>
  expect none reg fun rs2 =>
  expect none (keyword .comma) fun _ =>
  expect none symbol fun s =>
  reduce (.branch op rs1 rs2 s)

/-- `instruction`. -/
def instructionItem : Item Token Instruction :=
  .or (expect none opcode rTypeItem) <|
  .or (expect none opcodeImmediate iTypeItem) <|
  .or (expect none opcodeLoadStore loadStoreItem) <|
  .or (expect none opcodeBranch branchItem) psuedoItem

/-- `directive`. -/
def directiveItem : Item Token Directive :=
  .or
    (expect none (keyword .sectionDirective) fun _ =>
      .or (expect none (keyword .dData) fun _ => reduce .sectionData)
        (expect none (keyword .dText) fun _ => reduce .sectionText)) <|
  .or (expect none (keyword .dText) fun _ => reduce .text) <|
  .or (expect none (keyword .dData) fun _ => reduce .data) <|
  .or (expect none (keyword .dGlobal) fun _ => expect none symbol fun s => reduce (.global s))
    (expect none (keyword .dAscii) fun _ => expect none string fun s => reduce (.ascii s))

/-! ### What the items yield -/

section

variable {ts : List Token} {i : Instruction}

theorem tokens_of_immediateKindItem {k : ImmediateKind → Instruction}
    (h : (immediateKindItem k).Yields ts i) : ∃ imm : ImmediateKind, ts = imm.tokens ∧ i = k imm := by
  rcases yields_or h with h | h
  · simp only [yields_expect, yields_reduce, reduceCtorEq, and_false, false_or] at h
    obtain ⟨ival, _, rfl, rfl, rfl⟩ := h
    exact ⟨.imm ival, rfl, rfl⟩
  rcases yields_or h with h | h
  · simp only [yields_expect, yields_reduce, reduceCtorEq, and_false, false_or] at h
    obtain ⟨-, _, rfl, -, _, rfl, -, _, rfl, s, _, rfl, -, _, rfl, rfl, rfl⟩ := h
    exact ⟨.modifier s, rfl, rfl⟩
  · simp only [yields_expect, yields_reduce, reduceCtorEq, and_false, false_or] at h
    obtain ⟨s, _, rfl, rfl, rfl⟩ := h
    exact ⟨.symbol s, rfl, rfl⟩

theorem tokens_of_psuedoItem (h : psuedoItem.Yields ts i) : ts = i.tokens := by
  rcases yields_or h with h | h
  · simp only [yields_expect, yields_reduce, reduceCtorEq, and_false, false_or] at h
    obtain ⟨-, _, rfl, rd, _, rfl, -, _, rfl, s, _, rfl, rfl, rfl⟩ := h
    rfl
  rcases yields_or h with h | h
  · simp only [yields_expect, yields_reduce, reduceCtorEq, and_false, false_or] at h
    obtain ⟨-, _, rfl, s, _, rfl, rfl, rfl⟩ := h
    rfl
  rcases yields_or h with h | h
  · simp only [yields_expect, yields_reduce, reduceCtorEq, and_false, false_or] at h
    obtain ⟨-, _, rfl, rd, _, rfl, -, _, rfl, rs, _, rfl, rfl, rfl⟩ := h
    rfl
  · simp only [yields_expect, yields_reduce, reduceCtorEq, and_false, false_or] at h
    obtain ⟨-, _, rfl, rfl, rfl⟩ := h
    rfl

/-- The item of `instruction` yields instructions. -/
theorem tokens_of_instructionItem (h : instructionItem.Yields ts i) : ts = i.tokens := by
  rcases yields_or h with hop | h
  · simp only [rTypeItem, yields_expect, yields_reduce, reduceCtorEq, and_false, false_or] at hop
    obtain ⟨op, _, rfl, hop⟩ := hop
    rcases hop with ⟨rfl, hi⟩ | ⟨rd, _, rfl, -, _, rfl, rs1, _, rfl, -, _, rfl, rs2, _, rfl, rfl, rfl⟩
    · cases hi
      rfl
    · rfl
  rcases yields_or h with h | h
  · simp only [iTypeItem, yields_expect, reduceCtorEq, and_false, false_or] at h
    obtain ⟨op, _, rfl, rd, _, rfl, -, _, rfl, rs1, _, rfl, -, _, rfl, h⟩ := h
    obtain ⟨imm, rfl, rfl⟩ := tokens_of_immediateKindItem h
    rfl
  rcases yields_or h with h | h
  · simp only [loadStoreItem, yields_expect, yields_reduce, reduceCtorEq, and_false, false_or] at h
    obtain ⟨op, _, rfl, r, _, rfl, -, _, rfl, ival, _, rfl, -, _, rfl, base, _, rfl, -, _, rfl, rfl,
      rfl⟩ := h
    rfl
  rcases yields_or h with h | h
  · simp only [branchItem, yields_expect, yields_reduce, reduceCtorEq, and_false, false_or] at h
    obtain ⟨op, _, rfl, rs1, _, rfl, -, _, rfl, rs2, _, rfl, -, _, rfl, s, _, rfl, rfl, rfl⟩ := h
    rfl
  · exact tokens_of_psuedoItem h

/-- The item of `directive` yields directives. -/
theorem tokens_of_directiveItem {d : Directive} (h : directiveItem.Yields ts d) : ts = d.tokens := by
  rcases yields_or h with h | h
  · simp only [yields_expect, reduceCtorEq, and_false, false_or] at h
    obtain ⟨-, _, rfl, h⟩ := h
    rcases yields_or h with h | h
    all_goals
      simp only [yields_expect, yields_reduce, reduceCtorEq, and_false, false_or] at h
      obtain ⟨-, _, rfl, rfl, rfl⟩ := h
      rfl
  rcases yields_or h with h | h
  · simp only [yields_expect, yields_reduce, reduceCtorEq, and_false, false_or] at h
    obtain ⟨-, _, rfl, rfl, rfl⟩ := h
    rfl
  rcases yields_or h with h | h
  · simp only [yields_expect, yields_reduce, reduceCtorEq, and_false, false_or] at h
    obtain ⟨-, _, rfl, rfl, rfl⟩ := h
    rfl
  rcases yields_or h with h | h
  all_goals
    simp only [yields_expect, yields_reduce, reduceCtorEq, and_false, false_or] at h
    obtain ⟨-, _, rfl, s, _, rfl, rfl, rfl⟩ := h
    rfl

end

/-! ## The automaton -/

/-- What is on the stack above `statements`. -/
inductive Top
  | nothing
  | directive (item : Item Token Directive)
  | label (label : Symbol)
  | labelColon (label : Symbol)
  | labelDirective (label : Symbol) (item : Item Token Directive)
  | labelInstruction (label : Symbol) (item : Item Token Instruction)
  | labelInstructions (label : Symbol)

/-- The stack: whether there is a `statements` at the bottom, and what is above. -/
structure Stack where
  statements : Bool
  top : Top

/-- What a token is shifted to. -/
def Top.next : Top → Token → Option Top
  | .nothing, t => ((symbol.get t).map .label).or ((directiveItem.next t).map .directive)
  | .directive item, t => (item.next t).map .directive
  | .label l, t => ((keyword .colon).get t).map fun _ => .labelColon l
  | .labelColon l, t =>
    ((instructionItem.next t).map (.labelInstruction l)).or
      ((directiveItem.next t).map (.labelDirective l))
  | .labelDirective l item, t => (item.next t).map (.labelDirective l)
  | .labelInstruction l item, t => (item.next t).map (.labelInstruction l)
  | .labelInstructions l, t => (instructionItem.next t).map (.labelInstruction l)

/-- The reductions that are made without a look at the next token. -/
def Stack.complete : Stack → List Reduction × Stack
  | ⟨_, .directive (.reduce d)⟩ => ([.directive d], ⟨true, .nothing⟩)
  | ⟨_, .labelDirective label (.reduce d)⟩ =>
    ([.directive d, .labelDirective label], ⟨true, .nothing⟩)
  | ⟨b, .labelInstruction label (.reduce i)⟩ => ([.instruction i], ⟨b, .labelInstructions label⟩)
  | s => ([], s)

/-- The default reduction of a state; that to `program`, on `statements` alone, is made by `yyparse`.
-/
def Stack.default : Stack → Option (Reduction × Stack)
  | ⟨b, .labelInstruction label item⟩ =>
    item.default.map fun i => (.instruction i, ⟨b, .labelInstructions label⟩)
  | ⟨_, .labelInstructions label⟩ => some (.labelInstructions label, ⟨true, .nothing⟩)
  | _ => none

/-- How many default reductions a state can be in front of. -/
def Stack.rank : Stack → ℕ
  | ⟨_, .labelInstruction _ _⟩ => 2
  | ⟨_, .labelInstructions _⟩ => 1
  | _ => 0

/-- The automaton of the grammar. -/
def automaton : Automaton Stack Token Reduction where
  shift s t := (s.top.next t).map fun top => Stack.complete ⟨s.statements, top⟩
  default := Stack.default
  rank := Stack.rank
  rank_default := by
    rintro ⟨b, top⟩ r s' h
    cases top with
    | labelInstruction label item =>
        obtain ⟨i, -, hi⟩ := Option.map_eq_some_iff.mp h
        cases hi
        exact Nat.one_lt_two
    | labelInstructions label =>
        cases h
        exact Nat.one_pos
    | _ => cases h

/-- The stack before the first token. -/
def start : Stack := ⟨false, .nothing⟩

/-- `statements` is all that is on the stack. -/
def Stack.isStatements : Stack → Bool
  | ⟨true, .nothing⟩ => true
  | _ => false

/-- What a run of `yyparse` does: the reductions, in order, whether the one to `program` follows, and
the value that is returned, 0 for an accepted input. -/
structure Run where
  reductions : List Reduction
  program : Bool
  value : ℕ

/-- Source: `riscvass.y`, the parser that bison generates. -/
def yyparse (ts : List Token) : Run where
  reductions := (automaton.parse start ts).reductions
  program := (automaton.parse start ts).state.isStatements
  value :=
    if (automaton.parse start ts).state.isStatements ∧ (automaton.parse start ts).rest = [] then 0
    else 1

/-! ## What was read -/

/-- What the top of the stack says of the tokens behind the statements that are done, and of the
reductions made since. -/
def Top.Reads : Top → List Token → List Reduction → Prop
  | .nothing, us, rs => us = [] ∧ rs = []
  | .directive item, us, rs => rs = [] ∧ ∀ vs d, item.Yields vs d → us ++ vs = d.tokens
  | .label l, us, rs => rs = [] ∧ us = [.symbol l]
  | .labelColon l, us, rs => rs = [] ∧ us = [.symbol l, .colon]
  | .labelDirective l item, us, rs =>
    rs = [] ∧ ∃ vs, us = .symbol l :: .colon :: vs ∧
      ∀ ws d, item.Yields ws d → vs ++ ws = d.tokens
  | .labelInstruction l item, us, rs =>
    ∃ (is : List Instruction) (vs : List Token), us = .symbol l :: .colon :: (is.flatMap Instruction.tokens ++ vs) ∧
      rs = is.map Reduction.instruction ∧ ∀ ws i, item.Yields ws i → vs ++ ws = i.tokens
  | .labelInstructions l, us, rs =>
    ∃ is : List Instruction, is ≠ [] ∧ us = .symbol l :: .colon :: is.flatMap Instruction.tokens ∧
      rs = is.map Reduction.instruction

/-- What a stack says of the tokens read and the reductions made: some statements are done, and of the
next one the part that the top tells. -/
def Reads (ts : List Token) (rs : List Reduction) (s : Stack) : Prop :=
  ∃ ss us rs', ts = tokensOf ss ++ us ∧ rs = reductionsOf ss ++ rs' ∧
    (s.statements = true ↔ ss ≠ []) ∧ s.top.Reads us rs'

/-- One more token of an item. -/
theorem yields_of_next {α : Type} {item item' : Item Token α} {t : Token} {tokens : α → List Token}
    {us : List Token} (h : item.next t = some item')
    (hreads : ∀ vs a, item.Yields vs a → us ++ vs = tokens a) :
    ∀ vs a, item'.Yields vs a → us ++ [t] ++ vs = tokens a := by
  intro vs a hyields
  rw [List.append_assoc]
  exact hreads (t :: vs) a ⟨item', h, hyields⟩

/-- **A shift**, in front of the reductions that it is followed by. -/
theorem Top.Reads.next {top top' : Top} {t : Token} {us : List Token} {rs : List Reduction}
    (h : top.Reads us rs) (hnext : top.next t = some top') : top'.Reads (us ++ [t]) rs := by
  have hdirective : ∀ vs d, directiveItem.Yields vs d → [] ++ vs = d.tokens :=
    fun _ _ => tokens_of_directiveItem
  have hinstruction : ∀ vs i, instructionItem.Yields vs i → [] ++ vs = i.tokens :=
    fun _ _ => tokens_of_instructionItem
  cases top with
  | nothing =>
      obtain ⟨rfl, rfl⟩ := h
      rcases Option.or_eq_some_iff.mp hnext with hlabel | ⟨-, hd⟩
      · obtain ⟨l, hl, rfl⟩ := Option.map_eq_some_iff.mp hlabel
        rw [symbol.get_eq_some.mp hl]
        exact ⟨rfl, rfl⟩
      · obtain ⟨item, hitem, rfl⟩ := Option.map_eq_some_iff.mp hd
        exact ⟨rfl, yields_of_next hitem hdirective⟩
  | directive item =>
      obtain ⟨rfl, hreads⟩ := h
      obtain ⟨item', hitem, rfl⟩ := Option.map_eq_some_iff.mp hnext
      exact ⟨rfl, yields_of_next hitem hreads⟩
  | label l =>
      obtain ⟨rfl, rfl⟩ := h
      obtain ⟨_, hget, rfl⟩ := Option.map_eq_some_iff.mp hnext
      have hcolon : t = .colon := (keyword Token.colon).get_eq_some.mp hget
      rw [hcolon]
      exact ⟨rfl, rfl⟩
  | labelColon l =>
      obtain ⟨rfl, rfl⟩ := h
      rcases Option.or_eq_some_iff.mp hnext with hi | ⟨-, hd⟩
      · obtain ⟨item, hitem, rfl⟩ := Option.map_eq_some_iff.mp hi
        exact ⟨[], [t], rfl, rfl, yields_of_next hitem hinstruction⟩
      · obtain ⟨item, hitem, rfl⟩ := Option.map_eq_some_iff.mp hd
        exact ⟨rfl, [t], rfl, yields_of_next hitem hdirective⟩
  | labelDirective l item =>
      obtain ⟨rfl, vs, rfl, hreads⟩ := h
      obtain ⟨item', hitem, rfl⟩ := Option.map_eq_some_iff.mp hnext
      exact ⟨rfl, vs ++ [t], rfl, yields_of_next hitem hreads⟩
  | labelInstruction l item =>
      obtain ⟨is, vs, rfl, rfl, hreads⟩ := h
      obtain ⟨item', hitem, rfl⟩ := Option.map_eq_some_iff.mp hnext
      exact ⟨is, vs ++ [t], by simp, rfl, yields_of_next hitem hreads⟩
  | labelInstructions l =>
      obtain ⟨is, hne, rfl, rfl⟩ := h
      obtain ⟨item, hitem, rfl⟩ := Option.map_eq_some_iff.mp hnext
      exact ⟨is, [t], by simp, rfl, yields_of_next hitem hinstruction⟩

/-- A statement is done. -/
theorem reads_statement (ss : List Statement) (st : Statement) {us : List Token}
    {rs : List Reduction} (hus : us = st.tokens) (hrs : rs = st.reductions) :
    Reads (tokensOf ss ++ us) (reductionsOf ss ++ rs) ⟨true, .nothing⟩ := by
  refine ⟨ss ++ [st], [], [], ?_, ?_, by simp, rfl, rfl⟩
  · simp [tokensOf, hus]
  · simp [reductionsOf, hrs]

/-- An instruction is done. -/
theorem Top.Reads.instruction {l : Symbol} {item : Item Token Instruction} {us : List Token}
    {rs : List Reduction} {i : Instruction} (h : (labelInstruction l item).Reads us rs)
    (hi : item.default = some i) : (labelInstructions l).Reads us (rs ++ [.instruction i]) := by
  obtain ⟨is, vs, rfl, rfl, hreads⟩ := h
  have htokens := hreads [] i hi
  rw [List.append_nil] at htokens
  exact ⟨is ++ [i], by simp, by simp [htokens], by simp⟩

/-- **The reductions without lookahead.** -/
theorem Reads.complete {ts : List Token} {rs : List Reduction} {s : Stack} (h : Reads ts rs s) :
    Reads ts (rs ++ s.complete.1) s.complete.2 := by
  have hsame : Reads ts (rs ++ []) s := by rwa [List.append_nil]
  obtain ⟨ss, us, rs', rfl, rfl, hss, htop⟩ := h
  obtain ⟨b, top⟩ := s
  rw [List.append_assoc]
  cases top with
  | directive item =>
      cases item with
      | reduce d =>
          obtain ⟨rfl, hreads⟩ := htop
          have htokens := hreads [] d rfl
          rw [List.append_nil] at htokens
          exact reads_statement ss (.directive d) htokens rfl
      | shift d next => simpa [Stack.complete] using hsame
  | labelDirective l item =>
      cases item with
      | reduce d =>
          obtain ⟨rfl, vs, rfl, hreads⟩ := htop
          have htokens := hreads [] d rfl
          rw [List.append_nil] at htokens
          rw [htokens]
          exact reads_statement ss (.labelDirective l d) rfl rfl
      | shift d next => simpa [Stack.complete] using hsame
  | labelInstruction l item =>
      cases item with
      | reduce i =>
          show Reads _ (reductionsOf ss ++ (rs' ++ [.instruction i])) ⟨b, .labelInstructions l⟩
          exact ⟨ss, us, rs' ++ [.instruction i], rfl, rfl, hss, htop.instruction rfl⟩
      | shift d next => simpa [Stack.complete] using hsame
  | _ => simpa [Stack.complete] using hsame

/-- **A default reduction.** -/
theorem Reads.default {ts : List Token} {rs : List Reduction} {s s' : Stack} {r : Reduction}
    (h : Reads ts rs s) (hd : s.default = some (r, s')) : Reads ts (rs ++ [r]) s' := by
  obtain ⟨ss, us, rs', rfl, rfl, hss, htop⟩ := h
  obtain ⟨b, top⟩ := s
  rw [List.append_assoc]
  cases top with
  | labelInstruction l item =>
      obtain ⟨i, hi, hr⟩ := Option.map_eq_some_iff.mp hd
      cases hr
      exact ⟨ss, us, rs' ++ [.instruction i], rfl, rfl, hss, htop.instruction hi⟩
  | labelInstructions l =>
      cases hd
      obtain ⟨is, hne, rfl, rfl⟩ := htop
      exact reads_statement ss (.labelInstructions l ⟨is, hne⟩) rfl rfl
  | _ => cases hd

/-- **What was read**, wherever the automaton stops. -/
theorem parse_reads (ts : List Token) :
    ∃ read, ts = read ++ (automaton.parse start ts).rest ∧
      Reads read (automaton.parse start ts).reductions (automaton.parse start ts).state := by
  have hstart : Reads [] [] start := ⟨[], [], [], rfl, rfl, by simp [start], rfl, rfl⟩
  refine automaton.parse_history Reads ?_ ?_ hstart ts
  · intro us rs s t rs' s' h hshift
    obtain ⟨top, htop, hs'⟩ := Option.map_eq_some_iff.mp hshift
    obtain ⟨ss, vs, rs₁, rfl, rfl, hss, hreads⟩ := h
    have hnext : Reads (tokensOf ss ++ vs ++ [t]) (reductionsOf ss ++ rs₁) ⟨s.statements, top⟩ :=
      ⟨ss, vs ++ [t], rs₁, List.append_assoc _ _ _, rfl, hss, hreads.next htop⟩
    have hcomplete := hnext.complete
    rw [hs'] at hcomplete
    exact hcomplete
  · intro us rs s r s' h hd
    exact h.default hd

/-! ## What is accepted -/

section

variable {b : Bool} {l : Symbol} {ts : List Token}

/-- What follows does not go on with an `opcode`. -/
def NoReg (ts : List Token) : Prop := ∀ n, ts.head? ≠ some (.reg n)

theorem noReg_instruction (i : Instruction) (ts : List Token) : NoReg (i.tokens ++ ts) := by
  intro n
  cases i with
  | rType op rd rs1 rs2 => cases op <;> simp [Instruction.tokens, Opcode.token]
  | iType op rd rs1 imm => cases op <;> simp [Instruction.tokens, OpcodeImmediate.token]
  | loadStore op r imm base => cases op <;> simp [Instruction.tokens, OpcodeLoadStore.token]
  | branch op rs1 rs2 symbol => cases op; simp [Instruction.tokens, OpcodeBranch.token]
  | opcode op => cases op <;> simp [Instruction.tokens, Opcode.token]
  | psuedo p => cases p <;> simp [Instruction.tokens, PsuedoInstruction.tokens]

/-- The first token of an instruction starts it, whether another one is in front of it or not. -/
theorem parse_first {top : Top} (htop : top = .labelColon l ∨ top = .labelInstructions l) {t : Token}
    {item : Item Token Instruction} (h : instructionItem.next t = some item) :
    automaton.parse ⟨b, top⟩ (t :: ts) =
      (automaton.parse (Stack.complete ⟨b, .labelInstruction l item⟩).2 ts).after
        (Stack.complete ⟨b, .labelInstruction l item⟩).1 := by
  refine automaton.parse_of_shift ?_ ts
  rcases htop with rfl | rfl <;> simp [automaton, Top.next, h]

/-- An opcode ends in front of what is not a register. -/
theorem parse_opcode (op : Opcode) (h : NoReg ts) :
    automaton.parse ⟨b, .labelInstruction l (rTypeItem op)⟩ ts =
      (automaton.parse ⟨b, .labelInstructions l⟩ ts).after [.instruction (.opcode op)] := by
  refine automaton.parse_of_default ?_ rfl
  cases ts with
  | nil => rfl
  | cons t ts =>
      have hreg : reg.get t = none := by
        by_contra hsome
        obtain ⟨n, hn⟩ := Option.ne_none_iff_exists'.mp hsome
        exact h n (by rw [reg.get_eq_some.mp hn]; rfl)
      simp [Automaton.canShift, automaton, Top.next, rTypeItem, expect, next, hreg]

/-- **The run over an instruction.** -/
theorem parse_instruction {top : Top} (htop : top = .labelColon l ∨ top = .labelInstructions l)
    (i : Instruction) (h : ∀ op, i = .opcode op → NoReg ts) :
    automaton.parse ⟨b, top⟩ (i.tokens ++ ts) =
      (automaton.parse ⟨b, .labelInstructions l⟩ ts).after [.instruction i] := by
  have hopcode : ∀ op : Opcode, instructionItem.next op.token = some (rTypeItem op) := by
    intro op
    cases op <;> rfl
  cases i with
  | rType op rd rs1 rs2 => exact parse_first htop (hopcode op)
  | iType op rd rs1 imm =>
      have hop : instructionItem.next op.token = some (iTypeItem op) := by cases op <;> rfl
      cases imm <;> exact parse_first htop hop
  | loadStore op r imm base =>
      have hop : instructionItem.next op.token = some (loadStoreItem op) := by cases op <;> rfl
      exact parse_first htop hop
  | branch op rs1 rs2 symbol =>
      have hop : instructionItem.next op.token = some (branchItem op) := by cases op; rfl
      exact parse_first htop hop
  | opcode op => exact (parse_first htop (hopcode op)).trans (parse_opcode op (h op rfl))
  | psuedo p => rcases htop with rfl | rfl <;> cases p <;> rfl

/-- **The run over the instructions of a block.** -/
theorem parse_instructions {top : Top} (is : List Instruction)
    (htop : top = .labelInstructions l ∨ top = .labelColon l ∧ is ≠ [])
    (h : ∀ op, is.getLast? = some (.opcode op) → NoReg ts) :
    automaton.parse ⟨b, top⟩ (is.flatMap Instruction.tokens ++ ts) =
      (automaton.parse ⟨b, .labelInstructions l⟩ ts).after (is.map .instruction) := by
  induction is generalizing top with
  | nil =>
      obtain rfl : top = .labelInstructions l := by simpa using htop
      rfl
  | cons i is ih =>
      have hfollow : ∀ op, i = .opcode op → NoReg (is.flatMap Instruction.tokens ++ ts) := by
        intro op hi
        cases is with
        | nil => exact h op (by rw [hi]; rfl)
        | cons j is =>
            rw [List.flatMap_cons, List.append_assoc]
            exact noReg_instruction j _
      have hlast : ∀ op, is.getLast? = some (.opcode op) → NoReg ts := by
        intro op hop
        refine h op ?_
        rw [List.getLast?_cons, hop]
        rfl
      rw [List.flatMap_cons, List.append_assoc, parse_instruction ?_ i hfollow,
        ih (Or.inl rfl) hlast, Automaton.after_after]
      · rfl
      · exact htop.symm.imp And.left id

/-- What follows does not go on with a block. -/
def Boundary (ts : List Token) : Prop :=
  NoReg ts ∧ ∀ t ∈ ts.head?, instructionItem.next t = none

theorem boundary_nil : Boundary [] := by
  constructor
  · intro n h
    cases h
  · intro t h
    cases h

theorem boundary_cons {t : Token} (hreg : ∀ n, t ≠ .reg n) (hnext : instructionItem.next t = none)
    (ts : List Token) : Boundary (t :: ts) := by
  constructor
  · intro n h
    exact hreg n (Option.some.inj h)
  · intro t' h
    cases h
    exact hnext

theorem boundary_label (l : Symbol) (ts : List Token) : Boundary (.symbol l :: ts) :=
  boundary_cons (by simp) rfl ts

theorem boundary_statement (st : Statement) (ts : List Token) : Boundary (st.tokens ++ ts) := by
  cases st with
  | labelInstructions l block => exact boundary_label l _
  | labelDirective l d => exact boundary_label l _
  | directive d => cases d <;> exact boundary_cons (by simp) rfl _

/-- A block ends. -/
theorem parse_boundary (h : Boundary ts) :
    automaton.parse ⟨b, .labelInstructions l⟩ ts =
      (automaton.parse ⟨true, .nothing⟩ ts).after [.labelInstructions l] := by
  refine automaton.parse_of_default ?_ rfl
  cases ts with
  | nil => rfl
  | cons t ts =>
      have hnext : instructionItem.next t = none := h.2 t rfl
      simp [Automaton.canShift, automaton, Top.next, hnext]

/-- **The run over a statement.** -/
theorem parse_statement (st : Statement) (h : Boundary ts) :
    automaton.parse ⟨b, .nothing⟩ (st.tokens ++ ts) =
      (automaton.parse ⟨true, .nothing⟩ ts).after st.reductions := by
  cases st with
  | labelInstructions l block =>
      have hlabel : automaton.parse ⟨b, .nothing⟩
          ((Statement.labelInstructions l block).tokens ++ ts) =
          automaton.parse ⟨b, .labelColon l⟩ (block.toList.flatMap Instruction.tokens ++ ts) := rfl
      rw [hlabel, parse_instructions block.toList (Or.inr ⟨rfl, block.nonempty⟩) fun _ _ => h.1,
        parse_boundary h, Automaton.after_after]
      rfl
  | labelDirective l d => cases d <;> rfl
  | directive d => cases d <;> rfl

/-- **The run over statements.** -/
theorem parse_statements (ss : List Statement) (h : Boundary ts) :
    automaton.parse ⟨b, .nothing⟩ (tokensOf ss ++ ts) =
      (automaton.parse ⟨b || !ss.isEmpty, .nothing⟩ ts).after (reductionsOf ss) := by
  induction ss generalizing b with
  | nil => rw [List.isEmpty_nil, Bool.not_true, Bool.or_false]; rfl
  | cons st ss ih =>
      have hfollow : Boundary (tokensOf ss ++ ts) := by
        cases ss with
        | nil => exact h
        | cons st' ss =>
            rw [tokensOf_cons, List.append_assoc]
            exact boundary_statement st' _
      rw [tokensOf_cons, List.append_assoc, parse_statement st hfollow, ih,
        Automaton.after_after, reductionsOf_cons, List.isEmpty_cons, Bool.not_false, Bool.or_true,
        Bool.true_or]

end

/-- **Programs are accepted**, with their reductions. -/
theorem yyparse_tokens (p : Program) : yyparse p.tokens = ⟨p.reductions, true, 0⟩ := by
  have hparse : automaton.parse start p.tokens =
      (automaton.parse ⟨true, .nothing⟩ []).after p.reductions := by
    have hstatements := parse_statements (b := false) p.statements boundary_nil
    rw [List.append_nil] at hstatements
    rw [Program.tokens, start, hstatements, Bool.false_or]
    have hne : (!p.statements.isEmpty) = true := by simp [p.nonempty]
    rw [hne]
    rfl
  have hend : automaton.parse ⟨true, .nothing⟩ [] = ⟨[], ⟨true, .nothing⟩, []⟩ := rfl
  rw [yyparse, hparse, hend]
  simp [Outcome.after, Stack.isStatements]

/-- **Only programs are accepted.** -/
theorem yyparse_sound {ts : List Token} (h : (yyparse ts).value = 0) : ∃ p : Program, ts = p.tokens := by
  obtain ⟨read, hread, ss, us, rs, htokens, -, hss, htop⟩ := parse_reads ts
  simp only [yyparse] at h
  split_ifs at h with haccepts
  obtain ⟨hstatements, hrest⟩ := haccepts
  generalize (automaton.parse start ts).state = s at *
  obtain ⟨b, top⟩ := s
  cases b with
  | false => cases hstatements
  | true =>
      cases top with
      | nothing =>
          obtain ⟨rfl, rfl⟩ := htop
          refine ⟨⟨ss, hss.mp rfl⟩, ?_⟩
          rw [hread, hrest, htokens, List.append_nil, List.append_nil]
          rfl
      | _ => cases hstatements

end Bison

end RiscvAssembler
