import Accumulator.Text.Numeral

/-!
# Command line arguments

A command has options, each with a long name and possibly a letter, and at most one operand. An
option that takes a value finds it after an equals sign, behind its letter, or in the next argument.
No option may be given twice, and a value in an argument of its own may not look like an option.
-/

namespace Accumulator.CommandLine

/-- An option of a command. -/
structure OptionSpec where
  name : Text
  letter : Option Char := none
  /-- Which values the option accepts; an option without a test takes no value. -/
  accepts : Option (Text → Bool) := none

/-- What a command allows after its name. -/
structure CommandSpec where
  options : List OptionSpec
  /-- Whether the command has an operand, which is then required. -/
  hasOperand : Bool

/-- The options and the operand that were given. An option without a value has an empty one. -/
structure Given where
  values : List (Text × Text) := []
  operand : Option Text := none
  deriving DecidableEq, Repr

/-- The outcome of reading arguments. -/
inductive Reading
  /-- The arguments do not fit the command. -/
  | misuse
  /-- The arguments ask for help. -/
  | help
  | given (arguments : Given)
  deriving DecidableEq, Repr

/-- Whether an argument can be a value of its own: it does not start with a dash, or is one. -/
def isPlain : Text → Bool
  | ['-'] => true
  | '-' :: _ => false
  | _ => true

namespace CommandSpec

/-- The option with a name. -/
def named? (spec : CommandSpec) (name : Text) : Option OptionSpec :=
  spec.options.find? fun o => o.name == name

/-- The option with a letter. -/
def lettered? (spec : CommandSpec) (letter : Char) : Option OptionSpec :=
  spec.options.find? fun o => o.letter == some letter

end CommandSpec

namespace Given

/-- The value of an option, if it was given. -/
def value? (given : Given) (name : Text) : Option Text := given.values.lookup name

/-- Whether an option was given. -/
def has (given : Given) (name : Text) : Bool := (given.value? name).isSome

/-- Add an option that was not given before. -/
def addValue? (given : Given) (o : OptionSpec) (value : Text) : Option Given :=
  if given.has o.name then none
  else
    match o.accepts with
    | none => some { given with values := (o.name, []) :: given.values }
    | some accepts =>
        if accepts value then some { given with values := (o.name, value) :: given.values }
        else none

/-- Add the operand, if the command has one and it was not given before. -/
def addOperand? (given : Given) (spec : CommandSpec) (operand : Text) : Option Given :=
  if spec.hasOperand && given.operand.isNone then some { given with operand := some operand }
  else none

end Given

/-- What reading one argument leads to. -/
inductive ArgumentStep
  | misuse
  | help
  | next (given : Given)
  /-- An option has been named whose value is the next argument. -/
  | awaiting (given : Given) (o : OptionSpec)

/-- Add an option, whose value may have been attached to it. -/
def readOption (given : Given) (o : OptionSpec) (attached : Option Text) : ArgumentStep :=
  match o.accepts, attached with
  | none, some _ => .misuse
  | some _, none => .awaiting given o
  | _, value =>
      match given.addValue? o (value.getD []) with
      | some next => .next next
      | none => .misuse

/-- Read an argument after its two dashes. -/
def readLong (spec : CommandSpec) (given : Given) (body : Text) : ArgumentStep :=
  let (name, attached) :=
    match body.cutAtFirst (· == '=') with
    | some (name, value) => (name, some value)
    | none => (body, none)
  match spec.named? name with
  | some o => readOption given o attached
  | none => if name = "help".toList ∧ attached = none then .help else .misuse

/-- The value behind a letter: one equals sign in front of it does not count. -/
def attachedValue : Text → Option Text
  | [] => none
  | '=' :: value => some value
  | value => some value

/-- Read an argument after its single dash: letters of options, of which the first that takes a
value has the rest as its value. -/
def readLetters (spec : CommandSpec) (given : Given) : Text → ArgumentStep
  | [] => .next given
  | letter :: rest =>
      match spec.lettered? letter with
      | none => if letter = 'h' then .help else .misuse
      | some o =>
          match o.accepts with
          | some _ => readOption given o (attachedValue rest)
          | none =>
              match given.addValue? o [] with
              | some next => readLetters spec next rest
              | none => .misuse

/-- Read one argument that may be an option. -/
def readArgument (spec : CommandSpec) (given : Given) (argument : Text) : ArgumentStep :=
  match argument with
  | '-' :: '-' :: body => readLong spec given body
  | '-' :: letter :: rest => readLetters spec given (letter :: rest)
  | operand =>
      match given.addOperand? spec operand with
      | some next => .next next
      | none => .misuse

/-- Read operands only. -/
def readOperands (spec : CommandSpec) (given : Given) : List Text → Option Given
  | [] => some given
  | operand :: rest =>
      match given.addOperand? spec operand with
      | some next => readOperands spec next rest
      | none => none

/-- Accept what was given, if the operand is not missing. -/
def conclude (spec : CommandSpec) : Option Given → Reading
  | none => .misuse
  | some given => if spec.hasOperand && given.operand.isNone then .misuse else .given given

/-- Read the arguments after the name of a command. Behind two dashes alone, all are operands. -/
def readArguments (spec : CommandSpec) (given : Given) : List Text → Reading
  | [] => conclude spec (some given)
  | argument :: rest =>
      if argument = ['-', '-'] then conclude spec (readOperands spec given rest)
      else
        match readArgument spec given argument, rest with
        | .misuse, _ => .misuse
        | .help, _ => .help
        | .next next, rest => readArguments spec next rest
        | .awaiting _ _, [] => .misuse
        | .awaiting given o, value :: rest =>
            if isPlain value then
              match given.addValue? o value with
              | some next => readArguments spec next rest
              | none => .misuse
            else .misuse

end Accumulator.CommandLine
