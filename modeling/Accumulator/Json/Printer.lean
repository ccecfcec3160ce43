import Accumulator.Json.Token
import Accumulator.Text.HexBytes

/-!
# Writing JSON values

The compact form has no blanks. The indented form puts every item and field on a line of its own,
two blanks further in than the brackets around it; an array or object without any is written
without a line break.
-/

namespace Accumulator.Json

/-- A character inside a string. Quotes, backslashes and control characters are escaped. -/
def escape (c : Char) : Text :=
  if c == '"' then ['\\', '"']
  else if c == '\\' then ['\\', '\\']
  else if c == '\n' then ['\\', 'n']
  else if c == '\r' then ['\\', 'r']
  else if c == '\t' then ['\\', 't']
  else if c == '\x08' then ['\\', 'b']
  else if c == '\x0c' then ['\\', 'f']
  else if c.toNat < 0x20 then
    '\\' :: 'u' :: Numeral.zeroPad 4 ((Numeral.digits 16 c.toNat).map Numeral.lowerDigit)
  else [c]

/-- A string between quotes. -/
def quoted (s : JsonString) : Text := '"' :: (s.getD []).flatMap escape ++ ['"']

/-- A number as written. -/
def JsonNumber.text (number : JsonNumber) : Text :=
  (if number.negative then ['-'] else []) ++ Numeral.decimal number.whole ++ number.tail

theorem sizeOf_value_lt {fields : List (JsonString × Json)} {field : JsonString × Json}
    (h : field ∈ fields) : sizeOf field.2 < sizeOf fields := by
  have hlt := List.sizeOf_lt_of_mem h
  obtain ⟨key, value⟩ := field
  simp only [Prod.mk.sizeOf_spec] at hlt
  simp only
  omega

/-- A value without blanks. -/
def compact : Json → Text
  | .null => ['n', 'u', 'l', 'l']
  | .bool true => ['t', 'r', 'u', 'e']
  | .bool false => ['f', 'a', 'l', 's', 'e']
  | .number value => JsonNumber.text value
  | .string value => quoted value
  | .array items => '[' :: Text.join [','] (items.map fun item => compact item) ++ [']']
  | .object fields =>
      '\x7b' ::
        Text.join [','] (fields.map fun field => quoted field.1 ++ ':' :: compact field.2) ++
        ['\x7d']
termination_by value => sizeOf value
decreasing_by
  · rename_i h
    have := List.sizeOf_lt_of_mem h
    simp only [Json.array.sizeOf_spec]
    omega
  · rename_i h
    have := sizeOf_value_lt h
    simp only [Json.object.sizeOf_spec]
    omega

/-- A line break and the blanks that start the next line. -/
def lineBreak (depth : Nat) : Text := '\n' :: List.replicate (2 * depth) ' '

/-- Pieces between brackets of a given depth, each on a line of its own. -/
def block (depth : Nat) (opening closing : Char) (pieces : List Text) : Text :=
  if pieces.isEmpty then [opening, closing]
  else
    opening :: lineBreak (depth + 1) ++ Text.join (',' :: lineBreak (depth + 1)) pieces ++
      lineBreak depth ++ [closing]

/-- A value in indented form, inside brackets of a given depth. -/
def indented (depth : Nat) : Json → Text
  | .array items => block depth '[' ']' (items.map fun item => indented (depth + 1) item)
  | .object fields =>
      block depth '\x7b' '\x7d'
        (fields.map fun field => quoted field.1 ++ ':' :: ' ' :: indented (depth + 1) field.2)
  | value => compact value
termination_by value => sizeOf value
decreasing_by
  · rename_i h
    have := List.sizeOf_lt_of_mem h
    simp only [Json.array.sizeOf_spec]
    omega
  · rename_i h
    have := sizeOf_value_lt h
    simp only [Json.object.sizeOf_spec]
    omega

end Accumulator.Json
