import Accumulator.Json.Reader
import Accumulator.Layout.Basic

/-!
# Layouts in JSON

A layout is written as an object with up to three known fields, or as an array of up to three
numbers in the order of these fields. What is missing has its standard value. Other fields are
ignored, whatever they hold; a known field may not be repeated.
-/

namespace Accumulator

/-- Why a text is no layout. -/
inductive LayoutTextError
  /-- The text is not JSON, or not the JSON of a layout. -/
  | malformed
  /-- The layout cannot be used. -/
  | invalid (error : LayoutError)
  deriving DecidableEq, Repr

/-- The error in words. What is said of a text that is no layout stands for the words of the
library that parses and reads it, which are not known here. -/
def LayoutTextError.message : LayoutTextError → String
  | malformed => "invalid config: not a memory layout"
  | invalid error => error.message

namespace Layout

/-- The name of the field for the number of bytes. -/
def capacityKey : Text := "capacity".toList

/-- The name of the field for the start of the heap. -/
def heapStartKey : Text := "heap_start".toList

/-- The name of the field for the start of the stack. -/
def stackStartKey : Text := "stack_start".toList

/-- A capacity is given as a 64-bit number. -/
def capacityBound : Nat := 0x10000000000000000

/-- An offset is given as a 16-bit number. -/
def offsetBound : Nat := 0x10000

/-- The only number among some values, or the number to use if there are none. -/
def single? (bound standard : Nat) : List Json → Option Nat
  | [] => some standard
  | [value] => value.natBelow? bound
  | _ => none

/-- The layout with given numbers, if each of them is there. -/
def ofNumbers? (capacity heapStart stackStart : Option Nat) : Option Layout :=
  match capacity, heapStart, stackStart with
  | some capacity, some heapStart, some stackStart =>
      some ⟨capacity, UInt16.ofNat heapStart, UInt16.ofNat stackStart⟩
  | _, _, _ => none

/-- The layout that may have been given in up to three lists of values. -/
def ofValues? (capacity heapStart stackStart : List Json) : Option Layout :=
  ofNumbers? (single? capacityBound standard.capacity capacity)
    (single? offsetBound standard.heapStart.toNat heapStart)
    (single? offsetBound standard.stackStart.toNat stackStart)

/-- The layout that a JSON value describes. -/
def ofJson? : Json → Option Layout
  | .object fields =>
      if Json.hasTextNames fields then
        ofValues? (Json.valuesOf capacityKey fields) (Json.valuesOf heapStartKey fields)
          (Json.valuesOf stackStartKey fields)
      else none
  | .array items =>
      if items.length ≤ 3 then
        ofValues? (items.take 1) ((items.drop 1).take 1) (items.drop 2)
      else none
  | _ => none

/-- The layout that a text describes, if it is valid. -/
def ofText (text : Text) : Except LayoutTextError Layout :=
  match (Json.read? text).bind ofJson? with
  | none => .error .malformed
  | some layout => layout.validate.mapError .invalid

/-- A layout in JSON. -/
def toJson (layout : Layout) : Json :=
  .record
    [(capacityKey, .nat layout.capacity), (heapStartKey, .nat layout.heapStart.toNat),
      (stackStartKey, .nat layout.stackStart.toNat)]

end Layout
end Accumulator
