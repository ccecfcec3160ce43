import Accumulator.Arithmetic
import Accumulator.Instruction.Decoding
import Accumulator.Machine.Basic

/-!
# One step

A step is planned before anything is changed. The plan is the instruction at the program counter
together with its effect: the registers afterwards and the cells to be stored. If the plan fails,
the machine stays as it is; so a fault never leaves half an instruction behind.

## Implementation notes

Planning only reads the machine, and committing a plan is the only place that writes it. Compiled
code therefore updates the buffer in place.
-/

namespace Accumulator

/-- Why an instruction cannot be executed. -/
inductive FaultKind
  /-- The instruction, its data or the address after it lies outside memory. -/
  | outOfBounds (address : Nat)
  /-- A return found no frame on the call stack. -/
  | stackUnderflow
  /-- A call found no room for a frame. -/
  | stackOverflow
  deriving DecidableEq, Repr

/-- A fault and the address of the instruction that raised it. -/
structure Fault where
  kind : FaultKind
  pc : UInt16
  deriving DecidableEq, Repr

/-- The kind of fault in words. -/
def FaultKind.message : FaultKind → String
  | outOfBounds address =>
      "address " ++ String.ofList (Numeral.markedHex 4 address) ++ " out of bounds"
  | stackUnderflow => "RET with an empty call stack"
  | stackOverflow => "JSR with a full call stack"

/-- The fault in words. -/
def Fault.message (fault : Fault) : String :=
  fault.kind.message ++ " at PC=" ++ String.ofList (Numeral.markedHex 4 fault.pc.toNat)

/-- What an instruction changes. -/
structure Effect where
  registers : Registers
  /-- The cells to be written, with their new values. -/
  stores : List (UInt16 × UInt8) := []
  deriving DecidableEq, Repr

namespace Machine

/-- The byte of an instruction at an address, which has sixteen bits. -/
def fetchByte (m : Machine) (address : Nat) : Except FaultKind UInt8 :=
  if address < 0x10000 then
    match m.memory.at? address with
    | some byte => .ok byte
    | none => .error (.outOfBounds address)
  else .error (.outOfBounds address)

/-- Up to two operand bytes at an address; those not asked for are zero. -/
def fetchOperands (m : Machine) (address : Nat) : Nat → Except FaultKind (UInt8 × UInt8)
  | 0 => .ok (0, 0)
  | 1 =>
      match m.fetchByte address with
      | .error kind => .error kind
      | .ok low => .ok (low, 0)
  | _ =>
      match m.fetchByte address with
      | .error kind => .error kind
      | .ok low =>
          match m.fetchByte (address + 1) with
          | .error kind => .error kind
          | .ok high => .ok (low, high)

/-- The instruction at the program counter, with the address that follows it. -/
def fetch (m : Machine) : Except FaultKind (Instruction × Nat) :=
  let start := m.registers.pc.toNat
  match m.fetchByte start with
  | .error kind => .error kind
  | .ok lead =>
      let size := operandSize lead
      match m.fetchOperands (start + 1) size with
      | .error kind => .error kind
      | .ok (low, high) => .ok (.ofBytes lead low high, start + 1 + size)

/-- Whether execution goes on at the address after an instruction. A call does, in the end: it
pushes that address. -/
def fallsThrough (flags : Flags) : Instruction → Bool
  | .jump _ | .ret => false
  | .jumpIfZero _ => !flags.zero
  | .jumpIfNegative _ => !flags.negative
  | _ => true

/-- The registers with the program counter moved past an instruction. At the very end of the
address space there is no address to move to, and only a jump that is taken can stand there. -/
def advance (m : Machine) (i : Instruction) (next : Nat) : Except FaultKind Registers :=
  if next < 0x10000 then .ok (m.registers.jump (UInt16.ofNat next))
  else if fallsThrough m.registers.flags i then .error (.outOfBounds next)
  else .ok m.registers

/-- Read a data byte. -/
def readData (m : Machine) (address : UInt16) : Except FaultKind UInt8 :=
  (m.memory.read address).mapError fun e => .outOfBounds e.address

/-- Store the accumulator. -/
def storeEffect (m : Machine) (registers : Registers) (address : UInt16) :
    Except FaultKind Effect :=
  if address.toNat < m.memory.size then
    .ok { registers := registers, stores := [(address, registers.acc)] }
  else .error (.outOfBounds address.toNat)

/-- Add a byte to the accumulator. -/
def addResult (registers : Registers) (operand : UInt8) : Registers :=
  let result := Arithmetic.add registers.acc operand registers.flags.carry
  registers.setResult result.1 result.2

/-- Subtract a byte from the accumulator. -/
def subResult (registers : Registers) (operand : UInt8) : Registers :=
  let result := Arithmetic.sub registers.acc operand registers.flags.carry
  registers.setResult result.1 result.2

/-- Push the program counter and jump. The frame has to fit the buffer, and the stack pointer after
it has to be an address. -/
def callEffect (m : Machine) (registers : Registers) (target : UInt16) :
    Except FaultKind Effect :=
  let next := registers.sp.toNat + Layout.frameSize
  if m.memory.size < next ∨ 0xFFFF < next then .error .stackOverflow
  else
    .ok
      { registers := { registers with pc := target, sp := UInt16.ofNat next }
        stores :=
          [(registers.sp, lowByte registers.pc), (registers.sp + 1, highByte registers.pc)] }

/-- Pop an address and jump to it. -/
def returnEffect (m : Machine) (registers : Registers) : Except FaultKind Effect :=
  if registers.sp.toNat < m.layout.stackStart.toNat + Layout.frameSize then .error .stackUnderflow
  else
    let top := registers.sp - 2
    match m.memory.readWord top with
    | .error e => .error (.outOfBounds e.address)
    | .ok target => .ok { registers := { registers with pc := target, sp := top } }

/-- The registers after a jump that is taken on a condition. -/
def jumpEffect (registers : Registers) (taken : Bool) (target : UInt16) : Effect :=
  { registers := if taken then registers.jump target else registers }

/-- The effect of an instruction, given the registers with the program counter moved past it. -/
def effectOf (m : Machine) (registers : Registers) : Instruction → Except FaultKind Effect
  | .nop | .halt | .unknown _ => .ok { registers := registers }
  | .loadZeroPage address =>
      (m.readData address.toUInt16).map fun v => { registers := { registers with acc := v } }
  | .loadImmediate value => .ok { registers := { registers with acc := value } }
  | .load address =>
      (m.readData address).map fun v => { registers := { registers with acc := v } }
  | .storeZeroPage address => m.storeEffect registers address.toUInt16
  | .store address => m.storeEffect registers address
  | .add address => (m.readData address).map fun v => { registers := addResult registers v }
  | .sub address => (m.readData address).map fun v => { registers := subResult registers v }
  | .addImmediate value => .ok { registers := addResult registers value }
  | .subImmediate value => .ok { registers := subResult registers value }
  | .jumpIfZero address => .ok (jumpEffect registers registers.flags.zero address)
  | .jump address => .ok (jumpEffect registers true address)
  | .call address => m.callEffect registers address
  | .ret => m.returnEffect registers
  | .jumpIfNegative address => .ok (jumpEffect registers registers.flags.negative address)

/-- The next instruction and its effect. -/
def plan (m : Machine) : Except FaultKind (Instruction × Effect) :=
  match m.fetch with
  | .error kind => .error kind
  | .ok (i, next) =>
      match m.advance i next with
      | .error kind => .error kind
      | .ok registers =>
          match m.effectOf registers i with
          | .error kind => .error kind
          | .ok effect => .ok (i, effect)

/-- Write the cells of an effect. -/
def storeAll (memory : Memory) (stores : List (UInt16 × UInt8)) : Memory :=
  stores.foldl (fun memory store => memory.put store.1.toNat store.2) memory

/-- Carry out a plan. -/
def commit (m : Machine) (i : Instruction) (effect : Effect) : Machine where
  registers := effect.registers
  memory := storeAll m.memory effect.stores
  layout := m.layout
  counter := m.counter + 1
  lastInstruction := some i

/-- Execute one instruction, or report the fault that keeps it from being executed. -/
def step (m : Machine) : Machine × Except Fault Instruction :=
  match m.plan with
  | .ok (i, effect) => (m.commit i effect, .ok i)
  | .error kind => (m, .error ⟨kind, m.registers.pc⟩)

end Machine
end Accumulator
