import Accumulator.Text.Basic

/-!
# Opcodes

The sixteen assigned opcodes, each with its byte, its mnemonic and the form of its operand. The
table is given by functions on a finite type, so that every law about it is a check of its rows.
-/

namespace Accumulator

/-- How the bytes after an opcode are read. -/
inductive OperandForm
  /-- No bytes follow. -/
  | none
  /-- One byte, used as a value. -/
  | immediate
  /-- One byte, used as an address below 256. -/
  | zeroPage
  /-- Two bytes, the low one first, used as an address. -/
  | absolute
  deriving DecidableEq, Repr

/-- The number of bytes an operand takes. -/
def OperandForm.size : OperandForm → Nat
  | none => 0
  | immediate | zeroPage => 1
  | absolute => 2

/-- The assigned opcodes, in the order of their bytes. -/
inductive Opcode
  | nop
  | halt
  | loadZeroPage
  | loadImmediate
  | load
  | storeZeroPage
  | store
  | add
  | sub
  | addImmediate
  | subImmediate
  | jumpIfZero
  | jump
  | call
  | ret
  | jumpIfNegative
  deriving DecidableEq, Repr

namespace Opcode

/-- Every assigned opcode. -/
def all : List Opcode :=
  [nop, halt, loadZeroPage, loadImmediate, load, storeZeroPage, store, add, sub, addImmediate,
    subImmediate, jumpIfZero, jump, call, ret, jumpIfNegative]

/-- The byte that encodes an opcode. -/
def code : Opcode → UInt8
  | nop => 0x00
  | halt => 0x01
  | loadZeroPage => 0x10
  | loadImmediate => 0x11
  | load => 0x12
  | storeZeroPage => 0x20
  | store => 0x22
  | add => 0x30
  | sub => 0x31
  | addImmediate => 0x32
  | subImmediate => 0x33
  | jumpIfZero => 0x40
  | jump => 0x41
  | call => 0x42
  | ret => 0x43
  | jumpIfNegative => 0x44

/-- The opcode that a byte encodes, if one is assigned to it. -/
def ofCode? (byte : UInt8) : Option Opcode := all.find? fun op => op.code == byte

/-- The form of the operand. -/
def form : Opcode → OperandForm
  | nop | halt | ret => .none
  | loadImmediate | addImmediate | subImmediate => .immediate
  | loadZeroPage | storeZeroPage => .zeroPage
  | load | store | add | sub | jumpIfZero | jump | call | jumpIfNegative => .absolute

/-- The name of an opcode in assembly text. -/
def mnemonic : Opcode → Text
  | nop => ['N', 'O', 'P']
  | halt => ['H', 'L', 'T']
  | loadZeroPage => ['L', 'D', 'A', '_', 'Z']
  | loadImmediate => ['L', 'D', 'A', '_', 'I']
  | load => ['L', 'D', 'A']
  | storeZeroPage => ['S', 'T', 'A', '_', 'Z']
  | store => ['S', 'T', 'A']
  | add => ['A', 'D', 'D']
  | sub => ['S', 'U', 'B']
  | addImmediate => ['A', 'D', 'D', '_', 'I']
  | subImmediate => ['S', 'U', 'B', '_', 'I']
  | jumpIfZero => ['J', 'M', 'Z']
  | jump => ['J', 'M', 'P']
  | call => ['J', 'S', 'R']
  | ret => ['R', 'E', 'T']
  | jumpIfNegative => ['J', 'M', 'N']

/-- The opcode with a name, in letters of either case. -/
def ofName? (name : Text) : Option Opcode := all.find? fun op => op.mnemonic == name.upper

/-- The arithmetic opcodes recompute the flags; all others keep them. -/
def affectsFlags : Opcode → Bool
  | add | sub | addImmediate | subImmediate => true
  | _ => false

theorem mem_all (op : Opcode) : op ∈ all := by cases op <;> decide

@[simp] theorem ofCode?_code (op : Opcode) : ofCode? op.code = some op := by
  cases op <;> decide

theorem code_of_ofCode? {byte : UInt8} {op : Opcode} (h : ofCode? byte = some op) :
    op.code = byte := by
  simpa using List.find?_some h

@[simp] theorem ofName?_mnemonic (op : Opcode) : ofName? op.mnemonic = some op := by
  cases op <;> decide

end Opcode
end Accumulator
