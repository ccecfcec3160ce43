import Accumulator.Instruction.Basic
import Accumulator.Layout.Basic
import Accumulator.Memory
import Accumulator.Registers

/-!
# The machine

A machine is a register file, a memory and the layout they were made for, together with a count of
the instructions executed and the last of them. This module holds what a host does to a machine
between runs; execution is in the modules on steps and runs.
-/

namespace Accumulator

/-- The state of a machine. -/
@[ext]
structure Machine where
  registers : Registers
  memory : Memory
  layout : Layout
  /-- The number of instructions executed since the last reset, in 64 bits. Behind the largest
  number it starts again at zero, where a build with checks stops. -/
  counter : UInt64
  /-- The last instruction executed since the registers were last set up. -/
  lastInstruction : Option Instruction
  deriving DecidableEq

namespace Machine

/-- The machine of a layout, with zeroed memory, before its first instruction. -/
def blank (layout : Layout) : Machine where
  registers := .start layout.heapStart layout.stackStart
  memory := .zeroed layout.capacity
  layout := layout
  counter := 0
  lastInstruction := none

/-- The machine of the standard layout. -/
def standard : Machine := blank .standard

/-- The machine of a layout, if the layout is valid. -/
def ofLayout (layout : Layout) : Except LayoutError Machine := layout.validate.map blank

/-- The number of instructions executed since the last reset. -/
def cycles (m : Machine) : Nat := m.counter.toNat

/-- Set up the registers: the program counter at the heap, the stack pointer at the stack, the rest
clear. Memory and the cycle count are kept. -/
def restart (m : Machine) : Machine :=
  { m with
    registers := .start m.layout.heapStart m.layout.stackStart
    lastInstruction := none }

/-- Set up the registers, zero all memory and forget the cycle count. -/
def reset (m : Machine) : Machine := { m.restart with memory := m.memory.clear, counter := 0 }

/-- Replace the registers. -/
def setRegisters (m : Machine) (registers : Registers) : Machine :=
  { m with registers := registers }

/-- Place bytes in memory at an offset. -/
def loadAt (m : Machine) (offset : UInt16) (bytes : List UInt8) : Except LoadError Machine :=
  (m.memory.load offset bytes).map fun memory => { m with memory := memory }

/-- Place a program in memory at the start of the heap. -/
def loadProgram (m : Machine) (program : List UInt8) : Except LoadError Machine :=
  m.loadAt m.layout.heapStart program

/-- Write one byte of memory from outside. -/
def write (m : Machine) (address : UInt16) (value : UInt8) : Except OutOfBounds Machine :=
  (m.memory.write address value).map fun memory => { m with memory := memory }

/-- Write one word of memory from outside. -/
def writeWord (m : Machine) (address value : UInt16) : Except OutOfBounds Machine :=
  (m.memory.writeWord address value).map fun memory => { m with memory := memory }

/-- The number of whole frames between the start of the stack and the stack pointer. -/
def frameCount (m : Machine) : Nat :=
  (m.registers.sp.toNat - m.layout.stackStart.toNat) / Layout.frameSize

/-- The address of a frame of the call stack, the outermost being number zero. -/
def frameAddress (m : Machine) (frame : Nat) : UInt16 :=
  m.layout.stackStart + UInt16.ofNat (Layout.frameSize * frame)

/-- The return addresses on the call stack, innermost last. A frame outside memory is left out. -/
def callStack (m : Machine) : List UInt16 :=
  (List.range m.frameCount).filterMap fun frame =>
    (m.memory.readWord (m.frameAddress frame)).toOption

/-- A summary of a machine in one line. -/
def summary (m : Machine) : String :=
  let layout := "VmConfig \x7b capacity: " ++ toString m.layout.capacity ++ ", heap_start: " ++
    toString m.layout.heapStart.toNat ++ ", stack_start: " ++
    toString m.layout.stackStart.toNat ++ " \x7d"
  let flags := "Flags \x7b carry: " ++ toString m.registers.flags.carry ++ ", zero: " ++
    toString m.registers.flags.zero ++ ", negative: " ++ toString m.registers.flags.negative ++
    " \x7d"
  let registers := "Registers \x7b pc: " ++ toString m.registers.pc.toNat ++ ", acc: " ++
    toString m.registers.acc.toNat ++ ", sp: " ++ toString m.registers.sp.toNat ++
    ", flags: " ++ flags ++ " \x7d"
  "Vm \x7b config: " ++ layout ++ ", cycles: " ++ toString m.cycles ++ ", regs: " ++ registers ++
    " \x7d"

end Machine
end Accumulator
