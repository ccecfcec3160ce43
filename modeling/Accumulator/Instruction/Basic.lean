import Accumulator.Instruction.Opcode
import Accumulator.Word

/-!
# Instructions

An instruction is an assigned opcode with its operand, or a byte to which no opcode is assigned.
It is encoded as the opcode byte followed by the operand bytes, the low byte of an address first.
-/

namespace Accumulator

/-- A decoded instruction. -/
inductive Instruction
  /-- Do nothing. -/
  | nop
  /-- End the current run. -/
  | halt
  /-- Load the accumulator from an address below 256. -/
  | loadZeroPage (address : UInt8)
  /-- Load the accumulator with a value. -/
  | loadImmediate (value : UInt8)
  /-- Load the accumulator from memory. -/
  | load (address : UInt16)
  /-- Store the accumulator at an address below 256. -/
  | storeZeroPage (address : UInt8)
  /-- Store the accumulator in memory. -/
  | store (address : UInt16)
  /-- Add a memory byte and the carry. -/
  | add (address : UInt16)
  /-- Subtract a memory byte and the borrow. -/
  | sub (address : UInt16)
  /-- Add a value and the carry. -/
  | addImmediate (value : UInt8)
  /-- Subtract a value and the borrow. -/
  | subImmediate (value : UInt8)
  /-- Jump if the last result was zero. -/
  | jumpIfZero (address : UInt16)
  /-- Jump. -/
  | jump (address : UInt16)
  /-- Push the address of the following instruction and jump. -/
  | call (address : UInt16)
  /-- Pop an address and jump to it. -/
  | ret
  /-- Jump if the last result was negative. -/
  | jumpIfNegative (address : UInt16)
  /-- A byte without an opcode, which does nothing. -/
  | unknown (byte : UInt8)
  deriving DecidableEq, Repr

namespace Instruction

/-- The opcode of an instruction; a byte without an opcode has none. -/
def opcode? : Instruction → Option Opcode
  | nop => some .nop
  | halt => some .halt
  | loadZeroPage _ => some .loadZeroPage
  | loadImmediate _ => some .loadImmediate
  | load _ => some .load
  | storeZeroPage _ => some .storeZeroPage
  | store _ => some .store
  | add _ => some .add
  | sub _ => some .sub
  | addImmediate _ => some .addImmediate
  | subImmediate _ => some .subImmediate
  | jumpIfZero _ => some .jumpIfZero
  | jump _ => some .jump
  | call _ => some .call
  | ret => some .ret
  | jumpIfNegative _ => some .jumpIfNegative
  | unknown _ => none

/-- The first byte of an instruction. -/
def leadByte : Instruction → UInt8
  | unknown byte => byte
  | i => (i.opcode?.map Opcode.code).getD 0

/-- The bytes after the first. -/
def operandBytes : Instruction → List UInt8
  | loadZeroPage byte | storeZeroPage byte => [byte]
  | loadImmediate byte | addImmediate byte | subImmediate byte => [byte]
  | load word | store word | add word | sub word => [lowByte word, highByte word]
  | jumpIfZero word | jump word | call word | jumpIfNegative word => [lowByte word, highByte word]
  | nop | halt | ret | unknown _ => []

/-- The bytes of an instruction. -/
def encode (i : Instruction) : List UInt8 := i.leadByte :: i.operandBytes

/-- The number of bytes an instruction takes. -/
def size (i : Instruction) : Nat := 1 + ((i.opcode?.map Opcode.form).getD .none).size

/-- The instruction with a first byte and operand bytes; those it does not need are ignored. -/
def ofBytes (lead : UInt8) (low high : UInt8) : Instruction :=
  match Opcode.ofCode? lead with
  | none => unknown lead
  | some .nop => nop
  | some .halt => halt
  | some .loadZeroPage => loadZeroPage low
  | some .loadImmediate => loadImmediate low
  | some .load => load (joinBytes low high)
  | some .storeZeroPage => storeZeroPage low
  | some .store => store (joinBytes low high)
  | some .add => add (joinBytes low high)
  | some .sub => sub (joinBytes low high)
  | some .addImmediate => addImmediate low
  | some .subImmediate => subImmediate low
  | some .jumpIfZero => jumpIfZero (joinBytes low high)
  | some .jump => jump (joinBytes low high)
  | some .call => call (joinBytes low high)
  | some .ret => ret
  | some .jumpIfNegative => jumpIfNegative (joinBytes low high)

@[simp] theorem length_encode (i : Instruction) : i.encode.length = i.size := by
  cases i <;> rfl

end Instruction
end Accumulator
