import Accumulator.CommandLine.Grammar
import Accumulator.Layout.Basic

/-!
# Commands

The program runs, debugs, assembles and disassembles files, and tests itself. Numbers that are
addresses may be written in hexadecimal; all numbers may have a plus sign.
-/

namespace Accumulator.CommandLine

/-- Changes to a memory layout, and the file that they start from. -/
structure LayoutOptions where
  file : Option Text := none
  capacity : Option Nat := none
  heapStart : Option UInt16 := none
  stackStart : Option UInt16 := none
  deriving DecidableEq, Repr

/-- How to run a program. -/
structure RunOptions where
  maxSteps : UInt64 := 100000
  /-- The number of instructions of one run of the machine; none counts as one. -/
  chunk : Nat := 1000
  trace : Bool := false
  json : Bool := false
  layout : LayoutOptions := {}
  deriving DecidableEq, Repr

/-- What the program is asked to do. -/
inductive Command
  /-- Nothing in particular. -/
  | banner
  | help
  | version
  | run (program : Text) (options : RunOptions)
  | debug (program : Text) (layout : LayoutOptions)
  | assemble (source : Text) (output : Option Text) (base : UInt16)
  | disassemble (image : Text) (base : UInt16)
  | selfTest
  deriving DecidableEq, Repr

/-- Read a number of steps, which takes at most 64 bits. -/
def readSteps? (text : Text) : Option UInt64 :=
  (Numeral.readBelow? 10 0x10000000000000000 text).map UInt64.ofNat

/-- Read a number of bytes, which takes at most 64 bits. -/
def readSize? : Text → Option Nat := Numeral.readBelow? 10 0x10000000000000000

/-- Read the length of a chunk, which takes at most 32 bits; zero may have a minus sign. -/
def readChunk? : Text → Option Nat
  | '-' :: digits => (Numeral.read? 10 digits).filter (· = 0)
  | text => Numeral.readBelow? 10 0x100000000 text

/-- Read an address, in decimal or marked as hexadecimal. -/
def readAddress? (text : Text) : Option UInt16 :=
  let n? := match text with
    | '0' :: 'x' :: digits | '0' :: 'X' :: digits => Numeral.readBelow? 16 65536 digits
    | digits => Numeral.readBelow? 10 65536 digits
  n?.map UInt16.ofNat

/-- The options that change a layout. -/
def layoutSpecs : List OptionSpec :=
  [{ name := "config".toList, accepts := some fun _ => true },
    { name := "capacity".toList, accepts := some fun v => (readSize? v).isSome },
    { name := "heap-start".toList, accepts := some fun v => (readAddress? v).isSome },
    { name := "stack-start".toList, accepts := some fun v => (readAddress? v).isSome }]

/-- The arguments of a run. -/
def runSpec : CommandSpec where
  options :=
    [{ name := "max-steps".toList, letter := some 'm',
       accepts := some fun v => (readSteps? v).isSome },
      { name := "chunk".toList, accepts := some fun v => (readChunk? v).isSome },
      { name := "trace".toList, letter := some 't' },
      { name := "json".toList }] ++ layoutSpecs
  hasOperand := true

/-- The arguments of a debugging session. -/
def debugSpec : CommandSpec := ⟨layoutSpecs, true⟩

/-- The option for a load address. -/
def baseSpec : OptionSpec :=
  { name := "base".toList, accepts := some fun v => (readAddress? v).isSome }

/-- The arguments of the assembler. -/
def assembleSpec : CommandSpec where
  options :=
    [{ name := "output".toList, letter := some 'o', accepts := some fun _ => true }, baseSpec]
  hasOperand := true

/-- The arguments of the disassembler. -/
def disassembleSpec : CommandSpec := ⟨[baseSpec], true⟩

/-- The arguments of the self-test. -/
def selfTestSpec : CommandSpec := ⟨[], false⟩

namespace Given

/-- The value of an option, read as a number. -/
def read? {α : Type} (given : Given) (name : String) (reader : Text → Option α) : Option α :=
  (given.value? name.toList).bind reader

/-- The changes to a layout. -/
def layoutOptions (given : Given) : LayoutOptions where
  file := given.value? "config".toList
  capacity := given.read? "capacity" readSize?
  heapStart := given.read? "heap-start" readAddress?
  stackStart := given.read? "stack-start" readAddress?

/-- The options of a run. -/
def runOptions (given : Given) : RunOptions where
  maxSteps := (given.read? "max-steps" readSteps?).getD 100000
  chunk := (given.read? "chunk" readChunk?).getD 1000
  trace := given.has "trace".toList
  json := given.has "json".toList
  layout := given.layoutOptions

/-- The load address. -/
def base (given : Given) : UInt16 := (given.read? "base" readAddress?).getD 0

end Given

/-- The commands by name: their arguments, and the command made of what was given. -/
def commands : List (Text × CommandSpec × (Text → Given → Command)) :=
  [("run".toList, runSpec, fun operand given => .run operand given.runOptions),
    ("debug".toList, debugSpec, fun operand given => .debug operand given.layoutOptions),
    ("asm".toList, assembleSpec,
      fun operand given => .assemble operand (given.value? "output".toList) given.base),
    ("disasm".toList, disassembleSpec, fun operand given => .disassemble operand given.base),
    ("test".toList, selfTestSpec, fun _ _ => .selfTest)]

/-- Read a command after its name. -/
def readCommand (name : Text) (arguments : List Text) : Option Command :=
  match commands.lookup name with
  | none => none
  | some (spec, make) =>
      match readArguments spec {} arguments with
      | .misuse => none
      | .help => some .help
      | .given given => some (make (given.operand.getD []) given)

/-- Whether the argument of the help command names a command. -/
def isTopic (name : Text) : Bool := (commands.lookup name).isSome || name == "help".toList

/-- The command that the arguments ask for, if they are well formed. -/
def Command.ofArguments? : List Text → Option Command
  | [] => some .banner
  | argument :: rest =>
      match argument with
      | ['-', '-'] => if rest.isEmpty then some .banner else none
      | '-' :: '-' :: name =>
          if name = "help".toList then some .help
          else if name = "version".toList then some .version
          else none
      | '-' :: 'h' :: _ => some .help
      | '-' :: 'V' :: _ => some .version
      | name =>
          if name = "help".toList then
            match rest with
            | [] => some .help
            | [topic] => if isTopic topic then some .help else none
            | _ => none
          else readCommand name rest

end Accumulator.CommandLine
