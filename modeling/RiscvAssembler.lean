import RiscvAssembler.InstructionWords
import RiscvAssembler.FixupWords
import RiscvAssembler.TextGrowth
import RiscvAssembler.ControlFlow
import RiscvAssembler.Strings
import RiscvAssembler.Tables
import RiscvAssembler.Insertions
import RiscvAssembler.Respelling
import RiscvAssembler.Visibility
import RiscvAssembler.ReadBack
import RiscvAssembler.DumperSafety
import RiscvAssembler.LabelMaps
import RiscvAssembler.SectionNames
import RiscvAssembler.Operands
import RiscvAssembler.Printing
import RiscvAssembler.Execution
import RiscvAssembler.Comments
import RiscvAssembler.SyntaxErrors
import RiscvAssembler.Refinement
import RiscvAssembler.Checkpoints
import RiscvAssembler.Dumping
import RiscvAssembler.Namesakes
import RiscvAssembler.Linking
import RiscvAssembler.Spacing
import RiscvAssembler.Lib.Lookahead
import RiscvAssembler.Lib.Lossless
