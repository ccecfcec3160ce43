import Accumulator.Listing
import Accumulator.Machine.Trace

/-!
# Debugging sessions

A session holds a machine and the program it was loaded with. It steps the machine, lets it run in
slices between which the host may look at it, and stops at breakpoints. A slice does not stop at
the address it starts from, so that a run can be taken up at a breakpoint.
-/

namespace Accumulator

/-- What a session last did. -/
inductive SessionStatus
  | ready
  | running
  | paused
  /-- An instruction was executed. -/
  | traced (entry : TraceEntry)
  /-- A halt at an address was executed, after some cycles in all. -/
  | halted (pc : UInt16) (cycles : Nat)
  | faulted (fault : Fault)
  /-- A run stopped in front of a breakpoint. -/
  | stoppedAt (pc : UInt16)
  | breakpointSet (pc : UInt16)
  | breakpointRemoved (pc : UInt16)
  /-- The machine was reset and the program loaded again. -/
  | reloaded
  | reloadFailed (error : LoadError)
  deriving DecidableEq, Repr

/-- The status in words. -/
def SessionStatus.text : SessionStatus → Text
  | ready => "Ready. Press 's' to step, 'r' to run, 'q' to quit.".toList
  | running => "Running...".toList
  | paused => "Paused.".toList
  | traced entry => entry.text
  | halted pc cycles =>
      "Halted at ".toList ++ HexBytes.word pc ++ " after ".toList ++ Numeral.decimal cycles ++
        " cycles".toList
  | faulted fault => "Fault: ".toList ++ fault.message.toList
  | stoppedAt pc => "Breakpoint at PC=".toList ++ HexBytes.word pc
  | breakpointSet pc => "Set breakpoint at PC=".toList ++ HexBytes.word pc
  | breakpointRemoved pc => "Removed breakpoint at PC=".toList ++ HexBytes.word pc
  | reloaded => "Reset. Ready.".toList
  | reloadFailed error => "Reload failed: ".toList ++ error.message.toList

/-- A debugging session. -/
structure Session where
  machine : Machine
  /-- The program to load again after a reset. -/
  program : List UInt8
  /-- The addresses of the breakpoints, each once. -/
  breakpoints : List UInt16
  running : Bool
  status : SessionStatus
  /-- The first memory row on view. -/
  scroll : Nat

namespace Session

/-- The number of bytes in a memory row. -/
def rowSize : Nat := 8

/-- The number of instructions in a slice of a run. -/
def sliceSize : Nat := 64

/-- A session on a machine that has been loaded with a program. -/
def start (m : Machine) (program : List UInt8) : Session where
  machine := m
  program := program
  breakpoints := []
  running := false
  status := .ready
  scroll := m.layout.heapStart.toNat / rowSize

/-- The address of the next instruction. -/
def pc (s : Session) : UInt16 := s.machine.registers.pc

/-- Execute one instruction. A halt or a fault ends a run. -/
def step : Session → Session
  | ⟨machine, program, breakpoints, running, _, scroll⟩ =>
      let pc := machine.registers.pc
      match machine.step with
      | (next, .ok .halt) =>
          ⟨next, program, breakpoints, false, .halted pc next.cycles, scroll⟩
      | (next, .ok i) =>
          ⟨next, program, breakpoints, running, .traced (.ofStep pc i next), scroll⟩
      | (next, .error fault) => ⟨next, program, breakpoints, false, .faulted fault, scroll⟩

/-- Start to run. Nothing is executed before the next slice. -/
def run (s : Session) : Session := { s with running := true, status := .running }

/-- The rest of a slice: execute up to a number of instructions, none of them at a breakpoint. -/
def proceed (s : Session) : Nat → Session
  | 0 => s
  | budget + 1 =>
      if s.pc ∈ s.breakpoints then { s with running := false, status := .stoppedAt s.pc }
      else
        let next := s.step
        if next.running then next.proceed budget else next

/-- Execute one slice of a run. -/
def tick (s : Session) : Session :=
  if s.running then
    let next := s.step
    if next.running then next.proceed (sliceSize - 1) else next
  else s

/-- Set a breakpoint at the next instruction, or remove the one that is there. -/
def toggleBreakpoint (s : Session) : Session :=
  if s.pc ∈ s.breakpoints then
    { s with
      breakpoints := s.breakpoints.filter fun address => address != s.pc
      status := .breakpointRemoved s.pc }
  else { s with breakpoints := s.pc :: s.breakpoints, status := .breakpointSet s.pc }

/-- Reset the machine and load the program again. -/
def reset (s : Session) : Session :=
  let cleared := s.machine.reset
  match cleared.loadProgram s.program with
  | .ok loaded => { s with machine := loaded, running := false, status := .reloaded }
  | .error e => { s with machine := cleared, running := false, status := .reloadFailed e }

/-- The number of memory rows; the last one may be shorter. -/
def rowCount (s : Session) : Nat := (s.machine.memory.size + rowSize - 1) / rowSize

/-- Show one row more at the top, unless the first one is on view. -/
def scrollUp (s : Session) : Session := { s with scroll := s.scroll - 1 }

/-- Show one row less at the top, unless only the last one is left. -/
def scrollDown (s : Session) : Session :=
  if s.scroll + 1 < s.rowCount then { s with scroll := s.scroll + 1 } else s

/-- The longest instruction takes three bytes. -/
def maxInstructionSize : Nat := 3

/-- The number of bytes that are decoded for a number of lines, in 64 bits. It is the lowest 64
bits of the product where that does not fit them; a build with checks stops there. -/
def windowSize (count : Nat) : Nat := maxInstructionSize * count % 0x10000000000000000

/-- Up to a number of lines of the program from the next instruction on. -/
def disassembly (s : Session) (count : Nat) : List ListingLine :=
  (Listing.lines (s.machine.memory.slice s.pc.toNat (windowSize count)) s.pc).take count

/-- Whether a line is that of the next instruction. -/
def isCurrent (s : Session) (line : ListingLine) : Bool := line.address == s.pc

end Session
end Accumulator
