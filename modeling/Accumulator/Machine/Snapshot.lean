import Accumulator.Json.Basic
import Accumulator.Machine.Trace

/-!
# Views of a machine in JSON

A snapshot is what a host shows of a machine: its registers, its cycle count and the depth of its
call stack. Snapshots, trace entries and faults are written with their fields in a fixed order.
-/

namespace Accumulator

/-- What a host shows of a machine. -/
structure Snapshot where
  registers : Registers
  counter : UInt64
  /-- The number of return addresses on the call stack. -/
  callDepth : Nat
  deriving DecidableEq, Repr

namespace Machine

/-- The snapshot of a machine. -/
def snapshot (m : Machine) : Snapshot := ⟨m.registers, m.counter, m.callStack.length⟩

end Machine

/-- Flags in JSON. -/
def Flags.toJson (flags : Flags) : Json :=
  .record
    [("carry".toList, .bool flags.carry), ("zero".toList, .bool flags.zero),
      ("negative".toList, .bool flags.negative)]

/-- The fields of the registers in JSON. -/
def Registers.fields (registers : Registers) : List (Text × Json) :=
  [("pc".toList, .nat registers.pc.toNat), ("acc".toList, .nat registers.acc.toNat),
    ("sp".toList, .nat registers.sp.toNat), ("flags".toList, registers.flags.toJson)]

/-- A snapshot in JSON. -/
def Snapshot.toJson (s : Snapshot) : Json :=
  .record (s.registers.fields ++
    [("cycles".toList, .nat s.counter.toNat), ("call_depth".toList, .nat s.callDepth)])

/-- A trace entry in JSON. -/
def TraceEntry.toJson (entry : TraceEntry) : Json :=
  .record
    [("addr".toList, .nat entry.address.toNat), ("instr".toList, .text entry.instruction.text),
      ("acc".toList, .nat entry.acc.toNat), ("flags".toList, .text entry.flags.text),
      ("sp".toList, .nat entry.sp.toNat)]

/-- A kind of fault in JSON. -/
def FaultKind.toJson : FaultKind → Json
  | outOfBounds address =>
      .record [("OutOfBounds".toList, .record [("addr".toList, .nat address)])]
  | stackUnderflow => .text "StackUnderflow".toList
  | stackOverflow => .text "StackOverflow".toList

/-- A fault in JSON. -/
def Fault.toJson (fault : Fault) : Json :=
  .record [("kind".toList, fault.kind.toJson), ("pc".toList, .nat fault.pc.toNat)]

end Accumulator
