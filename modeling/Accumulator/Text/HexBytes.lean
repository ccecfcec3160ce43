import Accumulator.Text.Numeral

/-!
# Bytes as hexadecimal text

A byte is two upper-case digits. A row of bytes is written with a separator between neighbours.
-/

namespace Accumulator.HexBytes

/-- The two digits of a byte. -/
def byte (b : UInt8) : Text :=
  [Numeral.upperDigit (b.toNat / 16), Numeral.upperDigit (b.toNat % 16)]

/-- Bytes as digit pairs with one blank between neighbours. -/
def spaced (bytes : List UInt8) : Text := Text.join [' '] (bytes.map byte)

/-- A byte as a hexadecimal numeral of the assembler. -/
def marked (b : UInt8) : Text := '0' :: 'x' :: byte b

/-- The four digits of a 16-bit address. -/
def word (w : UInt16) : Text := Numeral.hex 4 w.toNat

end Accumulator.HexBytes
