import Accumulator.Instruction.Basic
import Accumulator.Json.Basic

/-!
# Instructions in JSON

An instruction without an operand is the name of its opcode; one with an operand is an object with
that name as its only key. A byte without an opcode has a name of its own. Reading goes by these
names, and takes the operand from an object or from an array of one number.
-/

namespace Accumulator

/-- The name of an opcode in JSON. -/
def Opcode.key : Opcode → Text
  | nop => "Nop".toList
  | halt => "Hlt".toList
  | loadZeroPage => "LdaZ".toList
  | loadImmediate => "LdaI".toList
  | load => "Lda".toList
  | storeZeroPage => "StaZ".toList
  | store => "Sta".toList
  | add => "Add".toList
  | sub => "Sub".toList
  | addImmediate => "AddI".toList
  | subImmediate => "SubI".toList
  | jumpIfZero => "Jmz".toList
  | jump => "Jmp".toList
  | call => "Jsr".toList
  | ret => "Ret".toList
  | jumpIfNegative => "Jmn".toList

/-- The opcode with a name in JSON. -/
def Opcode.ofKey? (key : Text) : Option Opcode := all.find? fun op => op.key == key

@[simp] theorem Opcode.ofKey?_key (op : Opcode) : ofKey? op.key = some op := by
  cases op <;> decide

namespace Instruction

/-- The name of a byte without an opcode. -/
def unknownKey : Text := "Unknown".toList

/-- The name of an operand that is an address. -/
def addressKey : Text := "addr".toList

/-- The name of an operand that is a value. -/
def valueKey : Text := "value".toList

/-- An instruction with an operand. -/
def operandJson (opcode : Opcode) (name : Text) (operand : Nat) : Json :=
  .record [(opcode.key, .record [(name, .nat operand)])]

/-- An instruction in JSON. -/
def toJson : Instruction → Json
  | nop => .text Opcode.nop.key
  | halt => .text Opcode.halt.key
  | ret => .text Opcode.ret.key
  | loadZeroPage address => operandJson .loadZeroPage addressKey address.toNat
  | loadImmediate value => operandJson .loadImmediate valueKey value.toNat
  | load address => operandJson .load addressKey address.toNat
  | storeZeroPage address => operandJson .storeZeroPage addressKey address.toNat
  | store address => operandJson .store addressKey address.toNat
  | add address => operandJson .add addressKey address.toNat
  | sub address => operandJson .sub addressKey address.toNat
  | addImmediate value => operandJson .addImmediate valueKey value.toNat
  | subImmediate value => operandJson .subImmediate valueKey value.toNat
  | jumpIfZero address => operandJson .jumpIfZero addressKey address.toNat
  | jump address => operandJson .jump addressKey address.toNat
  | call address => operandJson .call addressKey address.toNat
  | jumpIfNegative address => operandJson .jumpIfNegative addressKey address.toNat
  | unknown byte => .record [(unknownKey, .nat byte.toNat)]

/-- The instruction with an opcode and an operand in JSON; the operand of an opcode that has none
may be spelled out as null. -/
def ofOperandJson? (opcode : Opcode) (operand : Json) : Option Instruction :=
  match opcode.form with
  | .none =>
      match operand with
      | .null => some (ofBytes opcode.code 0 0)
      | _ => none
  | .immediate =>
      ((operand.member? [valueKey] valueKey).bind Json.byte?).map fun value =>
        ofBytes opcode.code value 0
  | .zeroPage =>
      ((operand.member? [addressKey] addressKey).bind Json.byte?).map fun address =>
        ofBytes opcode.code address 0
  | .absolute =>
      ((operand.member? [addressKey] addressKey).bind Json.word?).map fun address =>
        ofBytes opcode.code (lowByte address) (highByte address)

/-- The instruction that a JSON value is. -/
def ofJson? : Json → Option Instruction
  | .string (some key) =>
      match Opcode.ofKey? key with
      | some opcode => if opcode.form = .none then some (ofBytes opcode.code 0 0) else none
      | none => none
  | .object [(some key, operand)] =>
      if key = unknownKey then operand.byte?.map unknown
      else (Opcode.ofKey? key).bind fun opcode => ofOperandJson? opcode operand
  | _ => none

theorem key_ne_unknownKey (opcode : Opcode) : opcode.key ≠ unknownKey := by
  cases opcode <;> decide

end Instruction
end Accumulator
