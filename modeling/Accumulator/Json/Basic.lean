import Accumulator.Text.Numeral

/-!
# JSON values

A value keeps what its text says: the fields of an object in order and with repetitions, and a
number with its digits. Strings are texts of characters; an escape that denotes half of a character
only makes a string that is no text.
-/

namespace Accumulator

/-- A JSON number. -/
structure JsonNumber where
  negative : Bool
  /-- The integer part. -/
  whole : Nat
  /-- The fraction and exponent as written, empty if there is neither. -/
  tail : Text
  deriving DecidableEq, Repr

/-- The characters of a JSON string, if its escapes denote whole characters. -/
abbrev JsonString := Option Text

/-- A JSON value. -/
inductive Json
  | null
  | bool (value : Bool)
  | number (value : JsonNumber)
  | string (value : JsonString)
  | array (items : List Json)
  | object (fields : List (JsonString × Json))
  deriving Repr

namespace JsonNumber

/-- A natural number as a JSON number. -/
def ofNat (n : Nat) : JsonNumber := ⟨false, n, []⟩

/-- The natural number that a JSON number is, if it is written as one. -/
def toNat? (number : JsonNumber) : Option Nat :=
  if number.negative = false ∧ number.tail = [] then some number.whole else none

@[simp] theorem toNat?_ofNat (n : Nat) : (ofNat n).toNat? = some n := rfl

end JsonNumber

namespace Json

/-- A natural number. -/
def nat (n : Nat) : Json := number (.ofNat n)

/-- A string. -/
def text (value : Text) : Json := string (some value)

/-- An object with the given fields. -/
def record (fields : List (Text × Json)) : Json :=
  object (fields.map fun field => (some field.1, field.2))

/-- The natural number that a value is. -/
def nat? : Json → Option Nat
  | number value => value.toNat?
  | _ => none

/-- The natural number that a value is, if it is below a bound. -/
def natBelow? (bound : Nat) (value : Json) : Option Nat := value.nat?.filter (· < bound)

/-- The truth value that a value is. -/
def bool? : Json → Option Bool
  | bool value => some value
  | _ => none

/-- The byte that a value is. -/
def byte? (value : Json) : Option UInt8 := (value.natBelow? 256).map UInt8.ofNat

/-- The 16-bit word that a value is. -/
def word? (value : Json) : Option UInt16 := (value.natBelow? 65536).map UInt16.ofNat

/-- The 64-bit number that a value is. -/
def doubleWord? (value : Json) : Option UInt64 :=
  (value.natBelow? 0x10000000000000000).map UInt64.ofNat

/-- The values of the fields with a name. -/
def valuesOf (name : Text) (fields : List (JsonString × Json)) : List Json :=
  (fields.filter fun field => field.1 == some name).map Prod.snd

/-- The value of the only field with a name. -/
def field? (name : Text) : Json → Option Json
  | object fields =>
      match valuesOf name fields with
      | [value] => some value
      | _ => none
  | _ => none

/-- Whether all names of some fields are texts. -/
def hasTextNames (fields : List (JsonString × Json)) : Bool :=
  fields.all fun field => field.1.isSome

/-- The value of a field of a record with some fields. In an object it has the name of the field
and no other one has; an array as long as the record has the values in order. -/
def member? (names : List Text) (name : Text) : Json → Option Json
  | object fields => if hasTextNames fields then (object fields).field? name else none
  | array items => if items.length = names.length then (names.zip items).lookup name else none
  | _ => none

/-- The value of a field that may be left out of an object and then counts as null. -/
def optionalMember? (names : List Text) (name : Text) : Json → Option Json
  | object fields =>
      if hasTextNames fields && (valuesOf name fields).isEmpty then some null
      else (object fields).member? names name
  | value => value.member? names name

@[simp] theorem nat?_nat (n : Nat) : (nat n).nat? = some n := rfl

@[simp] theorem natBelow?_nat (bound n : Nat) :
    (nat n).natBelow? bound = if n < bound then some n else none := by
  simp [natBelow?, Option.filter]

@[simp] theorem byte?_nat (b : UInt8) : (nat b.toNat).byte? = some b := by
  have h : b.toNat < 256 := b.toNat_lt
  simp [byte?, h]

@[simp] theorem word?_nat (w : UInt16) : (nat w.toNat).word? = some w := by
  have h : w.toNat < 65536 := w.toNat_lt
  simp [word?, h]

@[simp] theorem doubleWord?_nat (n : UInt64) : (nat n.toNat).doubleWord? = some n := by
  have h : n.toNat < 0x10000000000000000 := n.toNat_lt
  simp [doubleWord?, h]

end Json
end Accumulator
