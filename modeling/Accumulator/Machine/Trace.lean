import Accumulator.Instruction.Printing
import Accumulator.Machine.Step

/-!
# Traces

A trace entry records one executed instruction: where it was, what it was, and the registers after
it.
-/

namespace Accumulator

/-- One executed instruction. -/
structure TraceEntry where
  address : UInt16
  instruction : Instruction
  acc : UInt8
  flags : Flags
  sp : UInt16
  deriving DecidableEq, Repr

namespace TraceEntry

/-- The entry for an instruction executed at an address, given the machine after it. -/
def ofStep (address : UInt16) (i : Instruction) (after : Machine) : TraceEntry :=
  ⟨address, i, after.registers.acc, after.registers.flags, after.registers.sp⟩

/-- The entry as one line. -/
def text (entry : TraceEntry) : Text :=
  HexBytes.word entry.address ++ ": ".toList ++ entry.instruction.text.padRight 16 ++
    " ACC=".toList ++ HexBytes.byte entry.acc ++ [' '] ++ entry.flags.text ++ " SP=".toList ++
    HexBytes.word entry.sp

end TraceEntry

/-- The outcome of stepping one instruction at a time. -/
structure Trace where
  machine : Machine
  entries : Array TraceEntry
  halted : Bool
  fault : Option Fault

namespace Machine

/-- Step up to a number of times, after some entries, until a halt or a fault. -/
def traceFrom (entries : Array TraceEntry) : Nat → Machine → Trace
  | 0, m => ⟨m, entries, false, none⟩
  | budget + 1, m =>
      let address := m.registers.pc
      match m.step with
      | (next, .error fault) => ⟨next, entries, false, some fault⟩
      | (next, .ok i) =>
          let entries := entries.push (.ofStep address i next)
          if i = .halt then ⟨next, entries, true, none⟩ else traceFrom entries budget next

/-- Step up to a number of times, until a halt or a fault, and record every instruction. -/
def trace (m : Machine) (budget : Nat) : Trace := traceFrom #[] budget m

end Machine
end Accumulator
