import RiscvAssembler.Grammar
import RiscvAssembler.Lib.Runs

/-!
# The parser's actions (`riscvass.y`)

`ParserState` holds the globals that survive from one action to a later one; `temp_inst`, `offset`,
`op_status`, `temp_opcode`, `section_idx` and `sym` are always written before they are read in the
same action and are local here. An action that calls `exit_with_message` yields `Except.error`,
with the two strings that say what was wrong (the position and the file name that are also printed
belong to the scanner and to `main`).

* `step` is the action of a reduction, `parse` the run over all reductions of a program and
  `assemble` the run followed by the action of `program`.
-/

namespace RiscvAssembler

open Runs

/-- What `exit_with_message` is given to print.
Source: `utils.cc`, `exit_with_message`. -/
structure ExitMessage where
  offendingStmt : Str
  errorToken : Str
  deriving DecidableEq, Repr

/-- The object and the globals of the parser. -/
structure ParserState where
  elf : ELF32
  tempValue : Str
  currentSection : Str
  currentLabel : Str
  tempIntLiteral : BitVec 64
  currentStmt : Str

namespace ParserState

/-- The state before the first token. -/
def start : ParserState := ⟨ELF32.init, [], [], [], 0, []⟩

/-- Source: `utils.h`, `is_within_range_12b`. -/
def isWithinRange12b (imm : BitVec 32) : Bool := -2048 ≤ imm.toInt && imm.toInt ≤ 2047

/-- Source: `utils.h`, `is_within_range_21b`. -/
def isWithinRange21b (imm : BitVec 32) : Bool := -1048576 ≤ imm.toInt && imm.toInt ≤ 1048575

/-- `std::to_string` of an integer. -/
def toStr (n : ℤ) : Str := str (toString n)

/-- `elf.add_to_text(temp_inst)`. -/
def addToText (s : ParserState) (w : Word) : ParserState := { s with elf := s.elf.addToText w }

/-- Record the pending reference to a label that has no address yet.
Source: `riscvass.y`, the calls of `add_to_unresolved_insns`. -/
def addPending (s : ParserState) (insnType : InstType) (offset : Word) : ParserState :=
  let next := s.elf.getNextInsnNumber s.currentSection
  { s with
    elf :=
      s.elf.addToUnresolvedInsns (next.setWidth 32) insnType offset ((next - 1).setWidth 32) }

/-! ## Instructions -/

/-- `funct7` is not taken from the opcode's record.
Source: `riscvass.y`, `instruction: opcode register COMMA register COMMA register`. -/
def rTypeAction (s : ParserState) (op : Opcode) (rd rs1 rs2 : Reg) : ParserState :=
  let s := { s with currentStmt := op.stmt }
  s.addToText (emitRTypeInstruction 0 rs1.toUnsigned rs2.toUnsigned op.value.funct3 rd.toUnsigned
    op.value.op)

/-- The enumerator that `immediate_kind` yields, as the `int` that is printed.
Source: `parser_incl.h`, `imm_kind`. -/
def immKindNumber : ImmediateKind → ℤ
  | .imm _ => 1
  | .symbol _ => 2
  | .modifier _ => 3

/-- Source: `riscvass.y`, the actions of `immediate_kind` and `modifier`. -/
def immediateKindAction (s : ParserState) : ImmediateKind → ParserState
  | .imm ival => { s with currentLabel := [], tempIntLiteral := ival.signExtend 64 }
  | .modifier hi => { s with currentLabel := hi.text }
  | .symbol symbol => { s with currentLabel := symbol.text }

/-- Source: `riscvass.y`, `instruction: opcode_immediate register COMMA register COMMA
immediate_kind`. -/
def iTypeAction (s : ParserState) (op : OpcodeImmediate) (rd rs1 : Reg) (imm : ImmediateKind) :
    Except ExitMessage ParserState :=
  let s := { s with currentStmt := op.stmt }
  let s := immediateKindAction s imm
  let s :=
    { s with
      currentStmt :=
        s.currentStmt ++ str "x" ++ toStr rd.toNat ++ str ", x" ++ toStr rs1.toNat ++ str ", " ++
          toStr (immKindNumber imm) }
  match imm with
  | .imm _ =>
    if isWithinRange12b (s.tempIntLiteral.setWidth 32) then
      let offset : Word := (s.tempIntLiteral &&& 0xFFF).setWidth 32
      .ok (s.addToText (emitITypeInstruction rd.toUnsigned rs1.toUnsigned offset op.value.funct3
        op.value.op))
    else .error ⟨s.currentStmt, toStr s.tempIntLiteral.toInt⟩
  | .symbol _ =>
    if s.elf.symbolExists s.currentLabel then
      let sym := s.elf.resolveSymbol s.currentLabel
      -- `sym.offset_idx * sizeof(uint32_t)`, back in a `uint32_t`
      let offset : Word := (sym.offsetIdx.setWidth 64 * 4).setWidth 32
      .ok (s.addToText (emitITypeInstruction rd.toUnsigned rs1.toUnsigned offset op.value.funct3
        op.value.op))
    else
      let sectionIdx := s.elf.getSectionIdx s.currentSection
      .ok
        { s with
          elf :=
            s.elf.addSymbol s.currentLabel sectionIdx (unresolvedIdx.setWidth 32) unresolvedIdx
              false false }
  -- `%hi() modifier NYI`
  | .modifier _ => .ok s

/-- Source: `riscvass.y`, `instruction: opcode_load_store register COMMA IMM PAREN_OPEN register
PAREN_CLOSE`. -/
def loadStoreAction (s : ParserState) (op : OpcodeLoadStore) (r : Reg) (imm : BitVec 32)
    (base : Reg) : ParserState :=
  let s := { s with currentStmt := op.stmt }
  let tempOpcode := op.value.op
  if isLoad tempOpcode then
    s.addToText (emitITypeInstruction r.toUnsigned base.toUnsigned imm op.value.funct3 tempOpcode)
  else
    s.addToText (emitSTypeInstruction r.toUnsigned base.toUnsigned imm op.value.funct3 tempOpcode)

/-- The word is emitted on both paths, with whatever `resolve_label` left in `offset`.
Source: `riscvass.y`, `instruction: opcode_branch register COMMA register COMMA SYMBOL`. -/
def branchAction (s : ParserState) (op : OpcodeBranch) (rs1 rs2 : Reg) (symbol : Symbol) :
    ParserState :=
  let s := { s with currentStmt := op.stmt }
  let (elf, opStatus, offset) := s.elf.resolveLabel symbol.text
  let s := { s with elf }
  let s := if opStatus = -1 then s.addPending .bType offset else s
  s.addToText (emitBTypeInstruction offset rs1.toUnsigned rs2.toUnsigned op.value.funct3
    op.value.op)

/-- Source: `riscvass.y`, `instruction: opcode`. -/
def opcodeAction (s : ParserState) (op : Opcode) : ParserState :=
  let s := { s with currentStmt := op.stmt }
  s.addToText (emitITypeInstruction 0 0 op.value.imm12 op.value.funct3 op.value.op)

/-- A word is emitted only for a label that has an address.
Source: `riscvass.y`, `psuedo_instruction: JUMP SYMBOL`. -/
def jumpAction (s : ParserState) (symbol : Symbol) : Except ExitMessage ParserState :=
  let (elf, opStatus, offset) := s.elf.resolveLabel symbol.text
  let s := { s with elf }
  if opStatus = -1 then .ok (s.addPending .jType offset)
  else
    let offset := offset <<< 1 &&& 0x1FFFFF
    if isWithinRange21b offset then .ok (s.addToText (emitJTypeInstruction offset 0 jal32))
    else .error ⟨str "j label", toStr offset.toNat⟩

/-- Source: `riscvass.y`, `psuedo_instruction: MOV REG COMMA REG`. -/
def movAction (s : ParserState) (rd rs : Reg) : ParserState :=
  s.addToText (emitITypeInstruction rd.toUnsigned rs.toUnsigned 0 0x0 0x13)

/-- Source: `riscvass.y`, `psuedo_instruction: RET`. -/
def retAction (s : ParserState) : ParserState := s.addToText (emitITypeInstruction 0 0 1 0x0 jalr32)

/-- The action of an `instruction`; that of `la` has no effect yet. -/
def instructionAction (s : ParserState) : Instruction → Except ExitMessage ParserState
  | .rType op rd rs1 rs2 => .ok (s.rTypeAction op rd rs1 rs2)
  | .iType op rd rs1 imm => s.iTypeAction op rd rs1 imm
  | .loadStore op r imm base => .ok (s.loadStoreAction op r imm base)
  | .branch op rs1 rs2 symbol => .ok (s.branchAction op rs1 rs2 symbol)
  | .opcode op => .ok (s.opcodeAction op)
  | .psuedo (.la _ _) => .ok s
  | .psuedo (.jump symbol) => s.jumpAction symbol
  | .psuedo (.mov rd rs) => .ok (s.movAction rd rs)
  | .psuedo .ret => .ok s.retAction

/-! ## Directives and statements -/

/-- Source: `riscvass.y`, the actions of `directive`. -/
def directiveAction (s : ParserState) : Directive → ParserState
  | .sectionData => { s with currentSection := str ".data", currentLabel := str ".data" }
  | .sectionText => { s with currentSection := str ".text", currentLabel := str ".text" }
  | .text => { s with currentLabel := str ".text" }
  | .data => { s with currentSection := str ".data", currentLabel := str ".data" }
  | .global symbol => { s with elf := s.elf.updateLabelVisibility symbol.text true }
  | .ascii string => { s with currentSection := str ".data", tempValue := string.sval }

/-- Source: `riscvass.y`, `statement: SYMBOL COLON instructions`. -/
def labelInstructionsAction (s : ParserState) (label : Symbol) : ParserState :=
  { s with elf := s.elf.initLabel label.text false s.currentSection }

/-- Source: `riscvass.y`, `statement: SYMBOL COLON directive`. -/
def labelDirectiveAction (s : ParserState) (label : Symbol) : ParserState :=
  let s := { s with currentLabel := label.text }
  if s.tempValue.length > 0 then
    { s with
      elf := s.elf.addProgramData label.text s.tempValue s.currentSection
      tempValue := [] }
  else s

/-- The action of a reduction. -/
def step (s : ParserState) : Reduction → Except ExitMessage ParserState
  | .instruction i => s.instructionAction i
  | .labelInstructions label => .ok (s.labelInstructionsAction label)
  | .labelDirective label => .ok (s.labelDirectiveAction label)
  | .directive d => .ok (s.directiveAction d)

end ParserState

open ParserState

/-- Run the actions of a sequence of reductions from the start. -/
def parseReductions (rs : List Reduction) : Except ExitMessage ParserState := run step start rs

/-- Run the actions of a program, up to the last reduction. -/
def Program.parse (p : Program) : Except ExitMessage ParserState := parseReductions p.reductions

/-- The object that the action of `program` serializes.
Source: `riscvass.y`, `program: statements`. -/
def Program.assemble (p : Program) : Except ExitMessage ELF32 :=
  p.parse.bind fun s => .ok s.elf.resolveUnresolvedInstructions

/-- The words of `.text` in the object that is serialized; none if the parser exits. -/
def Program.text (p : Program) : List Word :=
  match p.assemble with
  | .ok e => e.secText.data
  | .error _ => []

theorem Program.text_eq {p : Program} {e : ELF32} (h : p.assemble = .ok e) :
    p.text = e.secText.data := by
  simp only [text, h]

end RiscvAssembler
