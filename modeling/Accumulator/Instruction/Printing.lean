import Accumulator.Instruction.Basic
import Accumulator.Text.HexBytes

/-!
# Instructions as assembly text

An instruction is its mnemonic and its operand: values in decimal, addresses in hexadecimal with
two or four digits. A byte without an opcode is written as a data byte, so that the text always
assembles to the bytes of the instruction.
-/

namespace Accumulator.Instruction

/-- The operand as text, if the instruction has one. -/
def operandText : Instruction → Option Text
  | nop | halt | ret => none
  | loadZeroPage byte | storeZeroPage byte | unknown byte => some (HexBytes.marked byte)
  | loadImmediate byte | addImmediate byte | subImmediate byte =>
      some (Numeral.decimal byte.toNat)
  | load word | store word | add word | sub word => some ('0' :: 'x' :: HexBytes.word word)
  | jumpIfZero word | jump word | call word | jumpIfNegative word =>
      some ('0' :: 'x' :: HexBytes.word word)

/-- The word that names the instruction: its mnemonic, or the directive for data bytes. -/
def nameText (i : Instruction) : Text := (i.opcode?.map Opcode.mnemonic).getD ['D', 'B']

/-- The instruction as one line of assembly text. -/
def text (i : Instruction) : Text :=
  match i.operandText with
  | none => i.nameText
  | some operand => i.nameText ++ ' ' :: operand

end Accumulator.Instruction
