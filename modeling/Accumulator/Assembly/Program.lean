import Accumulator.Assembly.Draft
import Accumulator.Word

/-!
# Programs

Once all labels of a draft are known, each placed statement yields its bytes by itself. The program
is the concatenation of these bytes in source order; an origin yields zeros for the room it skips.
-/

namespace Accumulator.Assembly

/-- The values that fit a byte: unsigned ones, and negative ones in two's complement. -/
def byteOfValue (value : Int) : Except Problem UInt8 :=
  if -128 ≤ value ∧ value < 256 then .ok (UInt8.ofInt value) else .error (.outOfRange value)

/-- The values that fit an address below 256. -/
def zeroPageOfValue (value : Int) : Except Problem UInt8 :=
  if 0 ≤ value ∧ value < 256 then .ok (UInt8.ofInt value) else .error (.outOfRange value)

/-- The values that fit a two-byte word. -/
def wordOfValue (value : Int) : Except Problem UInt16 :=
  if 0 ≤ value ∧ value < 65536 then .ok (UInt16.ofInt value) else .error (.outOfRange value)

/-- A word as two bytes. -/
def wordBytes (word : UInt16) : List UInt8 := [lowByte word, highByte word]

/-- The bytes of an operand of a given form. -/
def operandBytes (overflow : Overflow) (symbols : Symbols) (e : Expression) :
    OperandForm → Except Problem (List UInt8)
  | .none => .ok []
  | .immediate => (e.eval overflow symbols).bind fun value => (byteOfValue value).map fun b => [b]
  | .zeroPage =>
      (e.eval overflow symbols).bind fun value => (zeroPageOfValue value).map fun b => [b]
  | .absolute => (e.eval overflow symbols).bind fun value => (wordOfValue value).map wordBytes

/-- The bytes of a list of values, each in the form given; the first problem counts. -/
def listBytes (overflow : Overflow) (symbols : Symbols) (form : OperandForm)
    (items : List Expression) : Except Problem (List UInt8) :=
  (items.mapM fun e => operandBytes overflow symbols e form).map List.flatten

/-- The bytes of a placed statement. -/
def Placed.bytes (overflow : Overflow) (symbols : Symbols) (placed : Placed) :
    Except Problem (List UInt8) :=
  match placed.statement with
  | .instruction opcode none => .ok [opcode.code]
  | .instruction opcode (some e) =>
      (operandBytes overflow symbols e opcode.form).map (opcode.code :: ·)
  | .bytes items => listBytes overflow symbols .immediate items
  | .words items => listBytes overflow symbols .absolute items
  | .origin _ => .ok (List.replicate placed.size 0)

/-- The bytes of a placed statement, a problem marked with its line. -/
def Placed.emit (overflow : Overflow) (symbols : Symbols) (placed : Placed) :
    Except Error (List UInt8) :=
  (placed.bytes overflow symbols).mapError (⟨placed.line, ·⟩)

/-- The bytes of placed statements, one after the other; the first problem counts. -/
def emit (overflow : Overflow) (symbols : Symbols) (placed : List Placed) :
    Except Error (List UInt8) :=
  (placed.mapM (Placed.emit overflow symbols)).map List.flatten

/-- The bytes of a finished draft. -/
def Draft.finish (overflow : Overflow) (draft : Draft) : Except Error (List UInt8) :=
  emit overflow draft.symbols draft.placed.toList

end Accumulator.Assembly

namespace Accumulator

/-- Assemble a source text to the bytes that are to be loaded at an address. A build without checks
is meant where none is named. -/
def assemble (source : Text) (base : UInt16) (overflow : Assembly.Overflow := .wraps) :
    Except Assembly.Error (List UInt8) :=
  match Assembly.Draft.ofSource overflow source base with
  | .error e => .error e
  | .ok draft => draft.finish overflow

end Accumulator
