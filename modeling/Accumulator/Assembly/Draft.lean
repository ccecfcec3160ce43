import Accumulator.Assembly.Statement

/-!
# Drafts

A draft is a program whose statements have addresses but no bytes yet. It grows line by line: a
label is defined at the current location, and a statement is placed there and moves the location
on. The size of a statement does not depend on the labels, so all addresses are final when the
last line has been read.

## Implementation notes

A program that keeps sizes and locations in machine words counts them in 32 bits. They are plain
numbers here: in a source of at most `2 ^ 31 - 2 ^ 16` characters no sum of a location and a size
needs more, whatever its lines are (`Draft.location_add_size_lt`).
-/

namespace Accumulator.Assembly

/-- A statement with its place in the program and the number of its line. -/
structure Placed where
  line : Nat
  address : Nat
  size : Nat
  statement : Statement
  deriving DecidableEq, Repr

/-- The statements placed so far, the labels defined so far and the next free address. -/
structure Draft where
  location : Nat
  symbols : Symbols
  placed : Array Placed

namespace Draft

/-- The first address past the address space. -/
def addressLimit : Nat := 0x10000

/-- The empty program at an address. -/
def start (base : UInt16) : Draft := ⟨base.toNat, [], #[]⟩

/-- Define a label at the current location. -/
def define (draft : Draft) (label : Text) : Except Problem Draft :=
  if !isLabel label then .error (.invalidLabel label)
  else if (draft.symbols.find? label).isSome then .error (.duplicateLabel label)
  else .ok { draft with symbols := (label.upper, draft.location) :: draft.symbols }

/-- The number of bytes that a statement takes at the current location. -/
def sizeOf (overflow : Overflow) (draft : Draft) : Statement → Except Problem Nat
  | .origin target =>
      match target.eval overflow draft.symbols with
      | .error problem => .error problem
      | .ok value =>
          if value < 0 ∨ value ≥ addressLimit then .error (.outOfRange value)
          else if value < draft.location then .error .backwardOrigin
          else .ok (value.toNat - draft.location)
  | statement => .ok statement.size

/-- Place a statement at the current location. -/
def place (overflow : Overflow) (draft : Draft) (line : Nat) (statement : Statement) :
    Except Problem Draft :=
  match draft.sizeOf overflow statement with
  | .error problem => .error problem
  | .ok size =>
      if draft.location + size > addressLimit then .error .pastLastAddress
      else .ok
        { draft with
          location := draft.location + size
          placed := draft.placed.push ⟨line, draft.location, size, statement⟩ }

/-- Define the label of a line, if it has one. -/
def defineLabel (draft : Draft) : Option Text → Except Problem Draft
  | none => .ok draft
  | some label => draft.define label

/-- Place the statement of a line, if it has one. -/
def placeBody (overflow : Overflow) (draft : Draft) (line : Nat) (body : Text) :
    Except Problem Draft :=
  if body.isEmpty then .ok draft
  else
    match Statement.ofText body with
    | .error problem => .error problem
    | .ok statement => draft.place overflow line statement

/-- Read one source line. -/
def readLine (overflow : Overflow) (draft : Draft) (line : Nat) (text : Text) :
    Except Error Draft :=
  let source := SourceLine.ofText text
  match draft.defineLabel source.label with
  | .error problem => .error ⟨line, problem⟩
  | .ok labelled => (labelled.placeBody overflow line source.body).mapError (⟨line, ·⟩)

/-- Read lines with their numbers. -/
def readLines (overflow : Overflow) (draft : Draft) : List (Text × Nat) → Except Error Draft
  | [] => .ok draft
  | (text, line) :: rest =>
      match draft.readLine overflow line text with
      | .error e => .error e
      | .ok next => next.readLines overflow rest

/-- Read a source text; its lines are counted from one. -/
def ofSource (overflow : Overflow) (source : Text) (base : UInt16) : Except Error Draft :=
  (start base).readLines overflow (source.lines.zipIdx 1)

end Draft
end Accumulator.Assembly
