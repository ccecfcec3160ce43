import Accumulator.Assembly.Program
import Accumulator.Machine.Run
import Accumulator.Machine.Snapshot
import Accumulator.Json.Printer

/-!
# Embedded machines

A machine as a host program drives it through a narrow interface: it remembers whether the last run
ended on a halt, and every successful load sets up the registers again.
-/

namespace Accumulator

/-- A machine and whether its last run ended on a halt. -/
structure Embedded where
  machine : Machine
  halted : Bool

/-- Why a source text cannot be loaded. -/
inductive SourceError
  | assembly (error : Assembly.Error)
  | load (error : LoadError)
  deriving DecidableEq, Repr

/-- The error in words. -/
def SourceError.message : SourceError → String
  | assembly error => error.message
  | load error => error.message

namespace Embedded

/-- A machine with the standard layout. -/
def standard : Embedded := ⟨.standard, false⟩

/-- A machine with a given layout. -/
def ofLayout (layout : Layout) : Except LayoutError Embedded :=
  (Machine.ofLayout layout).map fun m => ⟨m, false⟩

/-- Set up the registers. -/
def restart (e : Embedded) : Embedded := ⟨e.machine.restart, false⟩

/-- Run up to a number of instructions; the result is the number executed. -/
def run (e : Embedded) (budget : Nat) : Embedded × Except Fault Nat :=
  match e.machine.run budget with
  | (next, .ok report) => (⟨next, report.halted⟩, .ok report.executed)
  | (next, .error fault) => (⟨next, false⟩, .error fault)

/-- Read one byte of memory. -/
def read (e : Embedded) (address : UInt16) : Except OutOfBounds UInt8 :=
  e.machine.memory.read address

/-- Write one byte of memory. -/
def write (e : Embedded) (address : UInt16) (value : UInt8) : Except OutOfBounds Embedded :=
  (e.machine.write address value).map fun m => { e with machine := m }

/-- Load a program at the heap and set up the registers. -/
def loadBytes (e : Embedded) (program : List UInt8) : Except LoadError Embedded :=
  (e.machine.loadProgram program).map fun m => restart ⟨m, e.halted⟩

/-- Assemble a source text for the heap, load it and set up the registers; the result is the size
of the program. Where a build with checks stops at a sum, nothing has been changed yet. -/
def loadSource (e : Embedded) (source : Text) (overflow : Assembly.Overflow := .wraps) :
    Except SourceError (Embedded × Nat) :=
  match assemble source e.machine.layout.heapStart overflow with
  | .error problem => .error (.assembly problem)
  | .ok program =>
      match e.loadBytes program with
      | .error problem => .error (.load problem)
      | .ok loaded => .ok (loaded, program.length)

/-- The snapshot of the machine as JSON text. -/
def stateText (e : Embedded) : Text := e.machine.snapshot.toJson.compact

end Embedded
end Accumulator
