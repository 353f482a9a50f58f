import RiscvAssembler.Elf

/-!
# Programs as the grammar derives them (`riscvass.y`, `opcodes.h`)

One type per nonterminal and one constructor per production, so that a value is a derivation and
everything that can be built here is accepted by the grammar. Terminals are represented by their
semantic values: a register by its number, an `IMM` by its `int`, a `SYMBOL` or a `STRING` by its
text, restricted to what the scanner's patterns for them match.

The four opcode nonterminals carry the `opcode_t` that their action builds and the text that it
puts into `current_stmt`.

A bison parser runs the action of a production when it reduces it, so a program is executed as the
sequence of its reductions: the instructions of a block first, the label in front of them last
(`Statement.reductions`, `Program.reductions`).
-/

namespace RiscvAssembler

open Bytes

/-! ## Terminals -/

/-- The number of a `REG` token: the scanner's register rules yield 0 to 31. -/
abbrev Reg := BitVec 5

/-- A register number passed as an `unsigned`. -/
def Reg.toUnsigned (r : Reg) : Word := r.setWidth 32

/-- `[a-zA-Z0-9]`. -/
def isAlnum (c : Byte) : Bool :=
  (0x30 ≤ c && c ≤ 0x39) || (0x41 ≤ c && c ≤ 0x5a) || (0x61 ≤ c && c ≤ 0x7a)

/-- The text matches `[_]?[a-zA-Z0-9]*`. -/
def isSymbolText : Str → Bool
  | [] => true
  | c :: cs => (c == 0x5f || isAlnum c) && cs.all isAlnum

/-- A `SYMBOL` token.
Source: `riscvass.l`, the rule that returns `SYMBOL`. -/
@[ext]
structure Symbol where
  text : Str
  isSymbol : isSymbolText text = true
  deriving DecidableEq

/-- The symbol with the given spelling. -/
def sym (s : String) (h : true = isSymbolText (str s) := by exact rfl) : Symbol := ⟨str s, h.symm⟩

/-- A `STRING` token, by what stands between its quotes.
Source: `riscvass.l`, the rule that returns `STRING`. -/
structure StringLit where
  body : Str
  noQuote : (0x22 : Byte) ∉ body

/-- `strdup(yytext)`: the literal with its quotes, as a C string. -/
def StringLit.sval (s : StringLit) : Str := cString (0x22 :: s.body ++ [0x22])

/-- The C string is the whole literal iff there is no NUL in it. -/
theorem StringLit.sval_eq_iff (s : StringLit) :
    s.sval = 0x22 :: (s.body ++ [0x22]) ↔ (0 : Byte) ∉ s.body := by
  constructor
  · intro heq hzero
    refine zero_notMem_cString (0x22 :: s.body ++ [0x22]) ?_
    show (0 : Byte) ∈ s.sval
    rw [heq]
    exact List.mem_cons_of_mem _ (List.mem_append_left _ hzero)
  · intro hzero
    refine cString_eq_self fun hmem => ?_
    rcases List.mem_append.mp hmem with hmem | hmem
    · exact hzero ((List.mem_cons.mp hmem).resolve_left (by decide))
    · exact absurd (List.mem_singleton.mp hmem) (by decide)

/-- The literal with the given contents. -/
def lit (s : String) (h : true = (str s).all (· != 0x22) := by exact rfl) : StringLit where
  body := str s
  noQuote := fun hmem => by simpa using List.all_eq_true.mp h.symm _ hmem

/-! ## Opcodes -/

/-- The members of `opcode_t` that some action reads, and `funct7`, which none reads.
Source: `parser_incl.h`, `opcode_t`. -/
structure OpcodeT where
  op : Word
  funct3 : Word := 0
  funct7 : Word := 0
  imm12 : Word := 0

/-- Source: `opcodes.h`. -/
def jal32 : Word := 0x6f
@[inherit_doc jal32] def jalr32 : Word := 0x67
@[inherit_doc jal32] def beq32 : Word := 0x63
@[inherit_doc jal32] def lb32 : Word := 0x03
@[inherit_doc jal32] def lh32 : Word := 0x03
@[inherit_doc jal32] def lw32 : Word := 0x03
@[inherit_doc jal32] def lbu32 : Word := 0x03
@[inherit_doc jal32] def lhu32 : Word := 0x03
@[inherit_doc jal32] def sb32 : Word := 0x23
@[inherit_doc jal32] def sh32 : Word := 0x23
@[inherit_doc jal32] def sw32 : Word := 0x23
@[inherit_doc jal32] def addi32 : Word := 0x13
@[inherit_doc jal32] def slti32 : Word := 0x13
@[inherit_doc jal32] def xori32 : Word := 0x13
@[inherit_doc jal32] def ori32 : Word := 0x13
@[inherit_doc jal32] def andi32 : Word := 0x13
@[inherit_doc jal32] def add32 : Word := 0x33
@[inherit_doc jal32] def sub32 : Word := 0x33
@[inherit_doc jal32] def sltiu32 : Word := 0x33
@[inherit_doc jal32] def ecall32 : Word := 0x73

/-- Source: `opcodes.cc`, `is_load`. -/
def isLoad (opcode : Word) : Bool :=
  opcode == lb32 || opcode == lh32 || opcode == lw32 || opcode == lbu32 || opcode == lhu32

/-- The nonterminal `opcode`. -/
inductive Opcode
  | sltiu | ecall | add | sub
  deriving DecidableEq, Repr

/-- Source: `riscvass.y`, the actions of `opcode`. -/
def Opcode.value : Opcode → OpcodeT
  | .sltiu => { op := sltiu32, funct3 := 0x3 }
  | .ecall => { op := ecall32, imm12 := 0x0 }
  | .add => { op := add32, funct3 := 0x0, funct7 := 0x00 }
  | .sub => { op := sub32, funct3 := 0x0, funct7 := 0x20 }

/-- The `current_stmt` that the actions of `opcode` set. -/
def Opcode.stmt : Opcode → Str
  | .sltiu => str "sltiu "
  | .ecall => str "ecall "
  | .add => str "add "
  | .sub => str "sub "

/-- The nonterminal `opcode_load_store`. -/
inductive OpcodeLoadStore
  | lb | lh | lw | lbu | lhu | sb | sh | sw
  deriving DecidableEq, Repr

/-- Source: `riscvass.y`, the actions of `opcode_load_store`. -/
def OpcodeLoadStore.value : OpcodeLoadStore → OpcodeT
  | .lb => { op := lb32, funct3 := 0x0 }
  | .lh => { op := lh32, funct3 := 0x1 }
  | .lw => { op := lw32, funct3 := 0x2 }
  | .lbu => { op := lbu32, funct3 := 0x4 }
  | .lhu => { op := lhu32, funct3 := 0x5 }
  | .sb => { op := sb32, funct3 := 0x0 }
  | .sh => { op := sh32, funct3 := 0x1 }
  | .sw => { op := sw32, funct3 := 0x2 }

/-- The `current_stmt` that the actions of `opcode_load_store` set. -/
def OpcodeLoadStore.stmt : OpcodeLoadStore → Str
  | .lb => str "lb "
  | .lh => str "lh "
  | .lw => str "lw "
  | .lbu => str "lbu "
  | .lhu => str "lhu "
  | .sb => str "sb "
  | .sh => str "sh "
  | .sw => str "sw "

/-- The nonterminal `opcode_immediate`. -/
inductive OpcodeImmediate
  | addi | slti | ori | xori | andi
  deriving DecidableEq, Repr

/-- Source: `riscvass.y`, the actions of `opcode_immediate`. -/
def OpcodeImmediate.value : OpcodeImmediate → OpcodeT
  | .addi => { op := addi32, funct3 := 0x0 }
  | .slti => { op := slti32, funct3 := 0x2 }
  | .ori => { op := ori32, funct3 := 0x5 }
  | .xori => { op := xori32, funct3 := 0x4 }
  | .andi => { op := andi32, funct3 := 0x6 }

/-- The `current_stmt` that the actions of `opcode_immediate` set. -/
def OpcodeImmediate.stmt : OpcodeImmediate → Str
  | .addi => str "addi "
  | .slti => str "slti"
  | .ori => str "ori "
  | .xori => str "xori "
  | .andi => str "andi "

/-- The nonterminal `opcode_branch`. -/
inductive OpcodeBranch
  | beq
  deriving DecidableEq, Repr

/-- Source: `riscvass.y`, the action of `opcode_branch`. -/
def OpcodeBranch.value : OpcodeBranch → OpcodeT
  | .beq => { op := beq32, funct3 := 0x0 }

/-- The `current_stmt` that the action of `opcode_branch` sets. -/
def OpcodeBranch.stmt : OpcodeBranch → Str
  | .beq => str "beq "

/-! ## Instructions, directives, statements -/

/-- The nonterminal `immediate_kind`; the only `modifier` is `%hi(symbol)`. -/
inductive ImmediateKind
  | imm (ival : BitVec 32)
  | modifier (hi : Symbol)
  | symbol (symbol : Symbol)
  deriving DecidableEq

/-- The nonterminal `psuedo_instruction`. -/
inductive PsuedoInstruction
  | la (rd : Reg) (symbol : Symbol)
  | jump (symbol : Symbol)
  | mov (rd rs : Reg)
  | ret
  deriving DecidableEq

/-- The nonterminal `instruction`. -/
inductive Instruction
  | rType (op : Opcode) (rd rs1 rs2 : Reg)
  | iType (op : OpcodeImmediate) (rd rs1 : Reg) (imm : ImmediateKind)
  | loadStore (op : OpcodeLoadStore) (r : Reg) (imm : BitVec 32) (base : Reg)
  | branch (op : OpcodeBranch) (rs1 rs2 : Reg) (symbol : Symbol)
  | opcode (op : Opcode)
  | psuedo (p : PsuedoInstruction)
  deriving DecidableEq

/-- The symbol in the place of an immediate, if there is one. -/
def Instruction.symbolOperand : Instruction → Option Str
  | .iType _ _ _ (.symbol symbol) => some symbol.text
  | _ => none

/-- The label whose address the instruction needs, with the type of the fixup for it; `la` asks for
none. -/
def Instruction.reference : Instruction → Option (InstType × Str)
  | .branch _ _ _ symbol => some (.bType, symbol.text)
  | .psuedo (.jump symbol) => some (.jType, symbol.text)
  | _ => none

/-- The nonterminal `instructions`: one instruction or more. -/
structure Instructions where
  toList : List Instruction
  nonempty : toList ≠ []

/-- The nonterminal `directive`. -/
inductive Directive
  | sectionData
  | sectionText
  | text
  | data
  | global (symbol : Symbol)
  | ascii (string : StringLit)

/-- The nonterminal `statement`. -/
inductive Statement
  | labelInstructions (label : Symbol) (block : Instructions)
  | labelDirective (label : Symbol) (directive : Directive)
  | directive (directive : Directive)

/-- The start symbol: one statement or more. -/
structure Program where
  statements : List Statement
  nonempty : statements ≠ []

/-! ## Reductions -/

/-- A reduction whose action has an effect on the object or on the parser's globals. -/
inductive Reduction
  | instruction (i : Instruction)
  | labelInstructions (label : Symbol)
  | labelDirective (label : Symbol)
  | directive (d : Directive)

/-- The label that a reduction asks the object to record, if there is one. -/
def Reduction.records : Reduction → Option Str
  | .labelInstructions label => some label.text
  | .directive (.global symbol) => some symbol.text
  | _ => none

/-- The symbol that an instruction uses as an immediate, if the reduction is one. -/
def Reduction.symbolOperand : Reduction → Option Str
  | .instruction i => i.symbolOperand
  | _ => none

/-- The reductions of a statement, in the order in which the parser makes them. -/
def Statement.reductions : Statement → List Reduction
  | .labelInstructions label block =>
    block.toList.map Reduction.instruction ++ [.labelInstructions label]
  | .labelDirective label d => [.directive d, .labelDirective label]
  | .directive d => [.directive d]

/-- The reductions of a list of statements. -/
def reductionsOf (ss : List Statement) : List Reduction := ss.flatMap Statement.reductions

/-- The reductions of a program, without the last one, to `program`. -/
def Program.reductions (p : Program) : List Reduction := reductionsOf p.statements

theorem reductionsOf_append (ss ss' : List Statement) :
    reductionsOf (ss ++ ss') = reductionsOf ss ++ reductionsOf ss' := by
  simp [reductionsOf]

theorem reductionsOf_cons (s : Statement) (ss : List Statement) :
    reductionsOf (s :: ss) = s.reductions ++ reductionsOf ss := by
  simp [reductionsOf]

/-- A block of instructions from a list that has a first element. -/
def block (i : Instruction) (is : List Instruction) : Instructions := ⟨i :: is, by simp⟩

/-- A program from a list that has a first element. -/
def program (s : Statement) (ss : List Statement) : Program := ⟨s :: ss, by simp⟩

/-- A program from the repository's tests, with a loop and an exit from it.
Source: `tests/strlen.s`. -/
def strlen : Program :=
  program (.directive .sectionText)
    [.directive (.global (sym "strlen")),
      .labelInstructions (sym "strlen") (block (.rType .add 5 0 0) []),
      .labelInstructions (sym "loop")
        (block (.rType .add 6 5 10)
          [.loadStore .lb 6 0 6, .branch .beq 6 0 (sym "done"), .iType .addi 5 5 (.imm 1),
            .psuedo (.jump (sym "loop"))]),
      .labelInstructions (sym "done") (block (.psuedo (.mov 10 5)) [.psuedo .ret])]

end RiscvAssembler
