import Accumulator.Json.Printer
import Mathlib.Data.List.Forall2

/-!
# The grammar of JSON texts

A value may be written in many ways. Blanks may stand around every token, a character of a string
may be written as it is or escaped, and an object may have any fields in any order. The relations
here say what a text denotes, without regard to how it is read.

## Implementation notes

A value keeps the digits of its numbers, so only its strings have several spellings. An escape may
denote one half of a character. Two halves that belong together are one character; a half by itself
leaves the string without a text.
-/

namespace Accumulator.Json

open Text

/-- Blanks between tokens. -/
def Blank (text : Text) : Prop := ∀ c ∈ text, c = ' ' ∨ c = '\t' ∨ c = '\n' ∨ c = '\r'

/-! ## Strings -/

/-- Four hexadecimal digits are the code of a sixteen-bit unit. -/
def Codes (digits : Text) (unit : Nat) : Prop :=
  digits.length = 4 ∧ Numeral.read? 16 digits = some unit

/-- A unit is the upper half of a character. -/
def IsUpper (unit : Nat) : Prop := 0xD800 ≤ unit ∧ unit < 0xDC00

/-- A unit is the lower half of a character. -/
def IsLower (unit : Nat) : Prop := 0xDC00 ≤ unit ∧ unit < 0xE000

/-- The letters after a backslash, with the characters that they stand for. -/
def letters : List (Char × Char) :=
  [('"', '"'), ('\\', '\\'), ('/', '/'), ('b', '\x08'), ('f', '\x0c'), ('n', '\n'), ('r', '\r'),
    ('t', '\t')]

/-- The ways to write a character inside a string. -/
inductive Spells : Text → Char → Prop
  | plain {c : Char} (hcontrol : 0x20 ≤ c.toNat) (hquote : c ≠ '"') (hslash : c ≠ '\\') :
      Spells [c] c
  | letter {letter c : Char} (h : (letter, c) ∈ letters) : Spells ['\\', letter] c
  | code {digits : Text} {unit : Nat} (h : Codes digits unit) (hupper : ¬ IsUpper unit)
      (hlower : ¬ IsLower unit) : Spells ('\\' :: 'u' :: digits) (Char.ofNat unit)
  | halves {first second : Text} {upper lower : Nat} (hfirst : Codes first upper)
      (hsecond : Codes second lower) (hupper : IsUpper upper) (hlower : IsLower lower) :
      Spells ('\\' :: 'u' :: first ++ '\\' :: 'u' :: second)
        (Char.ofNat (0x10000 + (upper - 0xD800) * 0x400 + (lower - 0xDC00)))

/-- The ways to write a piece of a string. -/
inductive SpellsPiece : Text → Piece → Prop
  | char {text : Text} {c : Char} (h : Spells text c) : SpellsPiece text (.char c)
  | half {digits : Text} {unit : Nat} (h : Codes digits unit)
      (hhalf : IsUpper unit ∨ IsLower unit) :
      SpellsPiece ('\\' :: 'u' :: digits) (.half unit)

/-- An upper half in front of a lower one, which are one character together. -/
def Piece.Joins : Piece → Piece → Prop
  | .half first, .half second => first < 0xDC00 ∧ 0xDC00 ≤ second
  | _, _ => False

/-- The inside of a string consists of pieces. -/
def SpellsPieces (text : Text) (pieces : List Piece) : Prop :=
  pieces.IsChain (fun first second => ¬ first.Joins second) ∧
    ∃ parts, List.Forall₂ SpellsPiece parts pieces ∧ parts.flatten = text

/-- The text of pieces, if there is no half among them. -/
def stringOf : List Piece → JsonString
  | [] => some []
  | .char c :: rest => (stringOf rest).map (c :: ·)
  | .half _ :: _ => none

/-- The ways to write a string. -/
inductive WritesString : Text → JsonString → Prop
  | mk {text : Text} {pieces : List Piece} (h : SpellsPieces text pieces) :
      WritesString ('"' :: text ++ ['"']) (stringOf pieces)

/-! ## Numbers -/

/-- One or more digits. -/
def Digits (text : Text) : Prop := text ≠ [] ∧ ∀ c ∈ text, c.isDigit = true

/-- A fraction, or none. -/
inductive Fraction : Text → Prop
  | none : Fraction []
  | digits {text : Text} (h : Digits text) : Fraction ('.' :: text)

/-- An exponent, or none. -/
inductive Exponent : Text → Prop
  | none : Exponent []
  | digits {mark : Char} {sign text : Text} (hmark : mark = 'e' ∨ mark = 'E')
      (hsign : sign = [] ∨ sign = ['+'] ∨ sign = ['-']) (h : Digits text) :
      Exponent (mark :: sign ++ text)

/-- What may follow the integer part of a number. -/
inductive Tail : Text → Prop
  | mk {fraction exponent : Text} (hfraction : Fraction fraction) (hexponent : Exponent exponent) :
      Tail (fraction ++ exponent)

/-! ## Values -/

/-- A field of an object, with the texts of its key and of its value. -/
structure WrittenField where
  /-- The key between quotes, with blanks around it. -/
  keyText : Text
  key : JsonString
  valueText : Text
  value : Json

/-- The text of a field. -/
def WrittenField.text (field : WrittenField) : Text := field.keyText ++ ':' :: field.valueText

/-- The field apart from its text. -/
def WrittenField.field (field : WrittenField) : JsonString × Json := (field.key, field.value)

/-- Blanks around a text. -/
inductive Padded (text : Text) : Text → Prop
  | mk {before after : Text} (hbefore : Blank before) (hafter : Blank after) :
      Padded text (before ++ text ++ after)

/-- The ways to write a value. -/
inductive Writes : Text → Json → Prop
  | null : Writes ['n', 'u', 'l', 'l'] .null
  | true : Writes ['t', 'r', 'u', 'e'] (.bool true)
  | false : Writes ['f', 'a', 'l', 's', 'e'] (.bool false)
  | number {number : JsonNumber} (h : Tail number.tail) :
      Writes (JsonNumber.text number) (.number number)
  | string {text : Text} {value : JsonString} (h : WritesString text value) :
      Writes text (.string value)
  | array {blanks : Text} {items : List (Text × Json)} (hblanks : Blank blanks)
      (hitems : ∀ item ∈ items, Writes item.1 item.2) :
      Writes ('[' :: blanks ++ join [','] (items.map Prod.fst) ++ [']'])
        (.array (items.map Prod.snd))
  | object {blanks : Text} {fields : List WrittenField} (hblanks : Blank blanks)
      (hkeys : ∀ field ∈ fields, ∃ text, WritesString text field.key ∧ Padded text field.keyText)
      (hvalues : ∀ field ∈ fields, Writes field.valueText field.value) :
      Writes ('\x7b' :: blanks ++ join [','] (fields.map WrittenField.text) ++ ['\x7d'])
        (.object (fields.map WrittenField.field))
  | padded {text padded : Text} {value : Json} (h : Writes text value)
      (hpadded : Padded text padded) :
      Writes padded value

end Accumulator.Json
