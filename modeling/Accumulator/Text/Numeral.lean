import Accumulator.Text.Basic

/-!
# Numerals

Numbers are written in a base between two and sixteen, most significant digit first, and read back
digit by digit. Readers of bounded numbers accept one sign in front and refuse what does not fit.
-/

namespace Accumulator.Numeral

/-- The digits of a number, most significant first. -/
def digits (base : Nat) (n : Nat) : List Nat :=
  if _ : n < base ∨ base < 2 then [n] else digits base (n / base) ++ [n % base]
termination_by n
decreasing_by exact Nat.div_lt_self (by omega) (by omega)

/-- The upper-case character of a digit. -/
def upperDigit (d : Nat) : Char := if d < 10 then Char.ofNat (48 + d) else Char.ofNat (55 + d)

/-- The lower-case character of a digit. -/
def lowerDigit (d : Nat) : Char := if d < 10 then Char.ofNat (48 + d) else Char.ofNat (87 + d)

/-- The value of a digit of either case, if it is one in the base. -/
def digitValue? (base : Nat) (c : Char) : Option Nat :=
  let value? :=
    if '0' ≤ c ∧ c ≤ '9' then some (c.toNat - 48)
    else if 'A' ≤ c ∧ c ≤ 'F' then some (c.toNat - 55)
    else if 'a' ≤ c ∧ c ≤ 'f' then some (c.toNat - 87)
    else none
  value?.filter (· < base)

/-- Read the digits that follow on a value already read. -/
def readOnto? (base : Nat) : Nat → Text → Option Nat
  | value, [] => some value
  | value, c :: rest =>
      match digitValue? base c with
      | some d => readOnto? base (value * base + d) rest
      | none => none

/-- Read a text of one or more digits. -/
def read? (base : Nat) (text : Text) : Option Nat :=
  if text.isEmpty then none else readOnto? base 0 text

/-- Read digits with an optional plus sign, up to an exclusive bound. -/
def readBelow? (base bound : Nat) (text : Text) : Option Nat :=
  let value? := match text with
    | '+' :: rest => read? base rest
    | _ => read? base text
  value?.filter (· < bound)

/-- Write a number in decimal. -/
def decimal (n : Nat) : Text := (digits 10 n).map upperDigit

/-- Write an integer in decimal, a minus sign in front of a negative one. -/
def signedDecimal : Int → Text
  | .ofNat n => decimal n
  | .negSucc n => '-' :: decimal (n + 1)

/-- Fill with zeros on the left to a least width. -/
def zeroPad (width : Nat) (text : Text) : Text :=
  List.replicate (width - text.length) '0' ++ text

/-- Write a number in upper-case hexadecimal with at least `width` digits. -/
def hex (width n : Nat) : Text := zeroPad width ((digits 16 n).map upperDigit)

/-- Write a number in lower-case hexadecimal with at least `width` digits, marked by `0x`. -/
def markedHex (width n : Nat) : Text :=
  '0' :: 'x' :: zeroPad width ((digits 16 n).map lowerDigit)

end Accumulator.Numeral
