import Accumulator.Assembly.Expression
import Accumulator.Instruction.Opcode

/-!
# Statements

A source line holds an optional label, an optional statement and an optional comment. A statement
is read from its text alone; its operands stay expressions until the labels are known.
-/

namespace Accumulator.Assembly

/-- A statement with unevaluated operands. -/
inductive Statement
  /-- One instruction. -/
  | instruction (opcode : Opcode) (operand : Option Expression)
  /-- A list of bytes. -/
  | bytes (items : List Expression)
  /-- A list of two-byte words, low byte first. -/
  | words (items : List Expression)
  /-- Continue at an address. -/
  | origin (target : Expression)
  deriving DecidableEq, Repr

/-- The number of bytes a statement takes, whatever its operands are. The room that an origin
skips depends on where it stands and is not counted here. -/
def Statement.size : Statement → Nat
  | instruction opcode _ => 1 + opcode.form.size
  | bytes items => items.length
  | words items => 2 * items.length
  | origin _ => 0

/-- Cut a line at the first semicolon outside quotes; every quote opens or closes a literal. -/
def stripComment (quoted : Bool) : Text → Text
  | [] => []
  | c :: rest =>
      if c = '\'' then c :: stripComment (!quoted) rest
      else if c = ';' ∧ quoted = false then []
      else c :: stripComment quoted rest

/-- A source line without its comment, cut into a label and the text of a statement. -/
structure SourceLine where
  label : Option Text
  body : Text
  deriving DecidableEq, Repr

/-- Cut a line at its first colon, unless a quote comes before it. -/
def SourceLine.ofText (line : Text) : SourceLine :=
  let code := (stripComment false line).trim
  match code.cutAtFirst (· == ':') with
  | some (before, after) =>
      if before.contains '\'' then ⟨none, code⟩ else ⟨some before.trim, after.trim⟩
  | none => ⟨none, code⟩

/-- Whether a text can name a label. -/
def isLabel : Text → Bool
  | [] => false
  | c :: rest => (c.isAlpha || c == '_') && rest.all fun d => d.isAlphanum || d == '_'

/-- The items between commas, none of which may be empty. -/
def readItems (directive : Text) : Option Text → Except Problem (List Expression)
  | none => .error (.missingValues directive)
  | some text =>
      let items := (text.pieces (· == ',')).map Text.trim
      if items.any List.isEmpty then .error (.missingValues directive)
      else .ok (items.map Expression.ofText)

/-- The first word of a statement, and what follows it if that is not blank. -/
def cutOperand (body : Text) : Text × Option Text :=
  match body.cutAtFirst Text.isBlank with
  | none => (body, none)
  | some (word, rest) =>
      let operand := rest.trim
      (word, if operand.isEmpty then none else some operand)

/-- Read an instruction, given its mnemonic as written. -/
def readInstruction (word : Text) (operand : Option Text) : Except Problem Statement :=
  match Opcode.ofName? word with
  | none => .error (.unknownMnemonic word)
  | some opcode =>
      match opcode.form, operand with
      | .none, some _ => .error (.unexpectedOperand word)
      | .none, none => .ok (.instruction opcode none)
      | _, none => .error (.missingOperand word)
      | _, some text => .ok (.instruction opcode (some (Expression.ofText text)))

/-- Read a statement from a text that is not blank. -/
def Statement.ofText (body : Text) : Except Problem Statement :=
  let (word, operand) := cutOperand body
  let name := word.upper
  if name = ['O', 'R', 'G'] then
    match operand with
    | none => .error .missingAddress
    | some text => .ok (.origin (Expression.ofText text))
  else if name = ['D', 'B'] ∨ name = ['B', 'Y', 'T', 'E'] then
    (readItems ['D', 'B'] operand).map .bytes
  else if name = ['D', 'W'] ∨ name = ['W', 'O', 'R', 'D'] then
    (readItems ['D', 'W'] operand).map .words
  else readInstruction word operand

end Accumulator.Assembly
