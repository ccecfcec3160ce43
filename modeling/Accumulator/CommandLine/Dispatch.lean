import Accumulator.CommandLine.Running
import Accumulator.CommandLine.SelfTest
import Accumulator.CommandLine.Conversion
import Accumulator.Debugger.Session

/-!
# Carrying out commands

Each command is a function from files to an outcome. Arguments that name no
command are misuse and have exit code two.
-/

namespace Accumulator.CommandLine

/-- What is printed where nothing is asked for. -/
def bannerText : String :=
  line "ACC8 v0.1.0" ++ line "A minimal 8-bit accumulator virtual machine" ++ line "" ++
    line "Use --help for available commands"

/-- The commands in words. This stands for the text that the library for command lines makes of
their descriptions, which is not known here. -/
def helpText : String :=
  line "A minimal 8-bit accumulator virtual machine" ++ line "" ++
    line "Usage: acc8 [COMMAND]" ++ line "" ++
    line "Commands:" ++
    line "  run     Run a program until it halts, faults or hits the step limit" ++
    line "  debug   Interactive debugger" ++
    line "  asm     Assemble source to a program image" ++
    line "  disasm  Disassemble a program image" ++
    line "  test    Run the built-in self-test" ++
    line "  help    Print this message"

/-- What is printed for arguments that fit no command. This stands for the message of the library
for command lines, which is not known here either. -/
def misuseText : String := line "error: invalid arguments; try --help"

/-- What a debugging session prints before its first screen. -/
def launchText : String := line "🚀 Launching debugger..."

/-- The session that a debugging command opens. -/
def openSession (files : Files) (name : Text) (options : LayoutOptions) : Except Failure Session :=
  (loadMachine files name options).map fun loaded => Session.start loaded.1 loaded.2

/-- Open a debugging session. What happens in it is up to the caller. -/
def debugCommand (files : Files) (name : Text) (options : LayoutOptions) : Outcome :=
  match openSession files name options with
  | .error failure => fail files "" failure
  | .ok _ => succeed files launchText

/-- Carry out a command. -/
def Command.perform (files : Files) : Command → Outcome
  | banner => succeed files bannerText
  | help => succeed files helpText
  | version => succeed files (line "acc8 0.1.0")
  | run program options => runCommand files program options
  | debug program options => debugCommand files program options
  | assemble source output base => assembleCommand files source output base
  | disassemble image base => disassembleCommand files image base
  | selfTest => selfTestCommand files

/-- The files that a command reads. -/
def Command.inputs : Command → List Text
  | run program options => program :: options.layout.file.toList
  | debug program layout => program :: layout.file.toList
  | assemble source _ _ => [source]
  | disassemble image _ => [image]
  | banner | help | version | selfTest => []

/-- The file that a command writes. -/
def Command.output? : Command → Option Text
  | assemble source output _ => some (output.getD (imageName source))
  | _ => none

/-- Carry out what the arguments ask for. -/
def perform (files : Files) (arguments : List Text) : Outcome :=
  match Command.ofArguments? arguments with
  | some command => command.perform files
  | none => { exitCode := 2, errors := misuseText, files := files }

end Accumulator.CommandLine
