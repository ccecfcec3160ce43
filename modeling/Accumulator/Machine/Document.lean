import Accumulator.Instruction.Document
import Accumulator.Json.Printer
import Accumulator.Layout.Document
import Accumulator.Machine.Snapshot

/-!
# Saved machines

A machine is saved as a JSON object with all of its state, every memory cell included, and read
back from it.

## Implementation notes

Writing and reading go by the names and types of the fields, as is usual for readers and writers
that are derived from them. A record is read from an object with its fields in any order, others
among them, or from an array of their values. No field may be repeated or left out, except that
there need not be a last instruction. Numbers have to fit their place.
-/

namespace Accumulator

/-- The registers in JSON. -/
def Registers.toJson (registers : Registers) : Json := .record registers.fields

/-- A memory in JSON. -/
def Memory.toJson (memory : Memory) : Json :=
  .record [("cells".toList, .array (memory.cells.toList.map fun cell => .nat cell.toNat))]

/-- The last instruction in JSON. -/
def lastInstructionToJson : Option Instruction → Json
  | none => .null
  | some i => i.toJson

/-- A machine in JSON. -/
def Machine.toJson (m : Machine) : Json :=
  .record
    [("regs".toList, m.registers.toJson), ("mem".toList, m.memory.toJson),
      ("config".toList, m.layout.toJson), ("cycles".toList, .nat m.cycles),
      ("last_instr".toList, lastInstructionToJson m.lastInstruction)]

/-- The saved form of a machine. -/
def Machine.save (m : Machine) : Text := m.toJson.compact

/-- The names of the fields of flags. -/
def Flags.keys : List Text := ["carry".toList, "zero".toList, "negative".toList]

/-- Read flags. -/
def Flags.ofJson? (value : Json) : Option Flags := do
  let carry ← (← value.member? keys "carry".toList).bool?
  let zero ← (← value.member? keys "zero".toList).bool?
  let negative ← (← value.member? keys "negative".toList).bool?
  return ⟨carry, zero, negative⟩

/-- The names of the fields of registers. -/
def Registers.keys : List Text := ["pc".toList, "acc".toList, "sp".toList, "flags".toList]

/-- Read registers. -/
def Registers.ofJson? (value : Json) : Option Registers := do
  let pc ← (← value.member? keys "pc".toList).word?
  let acc ← (← value.member? keys "acc".toList).byte?
  let sp ← (← value.member? keys "sp".toList).word?
  let flags ← Flags.ofJson? (← value.member? keys "flags".toList)
  return ⟨pc, acc, sp, flags⟩

/-- Read a memory. -/
def Memory.ofJson? (value : Json) : Option Memory := do
  match ← value.member? ["cells".toList] "cells".toList with
  | .array items => return ⟨(← items.mapM Json.byte?).toArray⟩
  | _ => none

/-- Read the last instruction. -/
def lastInstructionOfJson? : Json → Option (Option Instruction)
  | .null => some none
  | value => (Instruction.ofJson? value).map some

/-- The names of the fields of a machine. -/
def Machine.keys : List Text :=
  ["regs".toList, "mem".toList, "config".toList, "cycles".toList, "last_instr".toList]

/-- Read a machine. -/
def Machine.ofJson? (value : Json) : Option Machine := do
  let registers ← Registers.ofJson? (← value.member? keys "regs".toList)
  let memory ← Memory.ofJson? (← value.member? keys "mem".toList)
  let layout ← Layout.ofJson? (← value.member? keys "config".toList)
  let counter ← (← value.member? keys "cycles".toList).doubleWord?
  let lastInstruction ←
    lastInstructionOfJson? (← value.optionalMember? keys "last_instr".toList)
  return ⟨registers, memory, layout, counter, lastInstruction⟩

/-- The machine that a text is the saved form of. -/
def Machine.restore? (text : Text) : Option Machine := (Json.read? text).bind Machine.ofJson?

end Accumulator
