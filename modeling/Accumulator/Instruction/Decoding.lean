import Accumulator.Instruction.Basic
import Accumulator.Text.Numeral

/-!
# Decoding bytes

The first byte fixes how many operand bytes an instruction has. Decoding fails only where the bytes
end too early, and then says how many operand bytes were missing.
-/

namespace Accumulator

/-- Why a byte sequence does not start with an instruction. -/
inductive DecodeError
  /-- There are no bytes. -/
  | empty
  /-- The operand is cut off. -/
  | truncated (lead : UInt8) (needed available : Nat)
  deriving DecidableEq, Repr

/-- The error in words. -/
def DecodeError.message : DecodeError → String
  | empty => "no bytes to decode"
  | truncated lead needed available =>
      "opcode " ++ String.ofList (Numeral.markedHex 2 lead.toNat) ++ " needs " ++ toString needed ++
        " operand bytes, " ++ toString available ++ " available"

/-- The number of operand bytes after a first byte. -/
def operandSize (lead : UInt8) : Nat := ((Opcode.ofCode? lead).map Opcode.form |>.getD .none).size

namespace Instruction

/-- Join a first byte with the bytes that follow it. -/
def ofParts (lead : UInt8) (operands : List UInt8) : Except DecodeError Instruction :=
  let own := operands.take (operandSize lead)
  if own.length < operandSize lead then .error (.truncated lead (operandSize lead) own.length)
  else .ok (ofBytes lead (own[0]?.getD 0) (own[1]?.getD 0))

/-- Decode the instruction at the start of a byte sequence, with the number of bytes it takes. -/
def decode : List UInt8 → Except DecodeError (Instruction × Nat)
  | [] => .error .empty
  | lead :: rest =>
      match ofParts lead rest with
      | .ok i => .ok (i, 1 + operandSize lead)
      | .error e => .error e

end Instruction
end Accumulator
