import Accumulator.Machine.Document
import Accumulator.Embedded
import Accumulator.Main
import Accumulator.Proofs.Listing.RoundTrip
import Accumulator.Proofs.Machine.InPlace
import Accumulator.Proofs.Machine.CallStack
import Accumulator.Proofs.Debugger.Breakpoints
import Accumulator.Proofs.Machine.Composition
import Accumulator.Proofs.CommandLine.Slicing
import Accumulator.Proofs.Assembly.Emission
import Accumulator.Proofs.Machine.StackRegion
import Accumulator.Proofs.Assembly.Encoding
import Accumulator.Proofs.Assembly.Passes
import Accumulator.Proofs.Assembly.MachineWords
import Accumulator.Proofs.Image.RoundTrip
import Accumulator.Proofs.Machine.Overflow
import Accumulator.Proofs.Machine.Faults
import Accumulator.Proofs.Machine.Semantics
import Accumulator.Proofs.Files
import Accumulator.Proofs.CommandLine.Arguments
import Accumulator.Proofs.CommandLine.Assembled
import Accumulator.Proofs.Machine.Footprint
import Accumulator.Proofs.Machine.Enlargement
import Accumulator.Proofs.Assembly.Concatenation
import Accumulator.Proofs.Assembly.Relocation
import Accumulator.Proofs.Debugger.Transparency
import Accumulator.Proofs.Instruction.Sequences
import Accumulator.Proofs.Machine.Fetching
import Accumulator.Proofs.Debugger.Disassembly
import Accumulator.Proofs.Machine.StoredPrograms
import Accumulator.Proofs.Machine.CarryChains
import Accumulator.Proofs.Debugger.Resetting
import Accumulator.Proofs.Memory.ByteMap
import Accumulator.Proofs.Machine.Loading
import Accumulator.Proofs.Embedded
import Accumulator.Proofs.Text.Case
import Accumulator.Proofs.Assembly.UpperSources
import Accumulator.Proofs.Machine.Saving
import Accumulator.Proofs.Machine.FirstCall
import Accumulator.Proofs.Image.Format
import Accumulator.Proofs.Assembly.Literals
import Accumulator.Proofs.Assembly.Sums
import Accumulator.Proofs.Assembly.Comments
import Accumulator.Proofs.CommandLine.Layouts
import Accumulator.Proofs.Memory.Loading
import Accumulator.Proofs.Debugger.Window
import Accumulator.Proofs.Debugger.MemoryPane
import Accumulator.Proofs.Memory.Bounds
import Accumulator.Proofs.Layout.Document
