import Accumulator.Assembly.Error
import Accumulator.Image.File
import Accumulator.Layout.Document
import Accumulator.Machine.Step

/-!
# Outcomes

A command turns files into an outcome: what it printed, an exit code, and the files afterwards. A
command that fails has printed whatever it printed before, reports one failure, and exits with code
one.
-/

namespace Accumulator.CommandLine

/-- What a command leaves behind. -/
structure Outcome where
  exitCode : Nat := 0
  output : String := ""
  errors : String := ""
  files : Files

/-- Why a layout file cannot be used. -/
inductive LayoutFileError
  | file (error : FileError)
  | text (error : LayoutTextError)
  deriving DecidableEq, Repr

/-- The error in words. -/
def LayoutFileError.message : LayoutFileError → String
  | file error => "I/O error: " ++ error.message
  | text error => error.message

/-- Why a command fails. -/
inductive Failure
  | layoutFile (name : Text) (error : LayoutFileError)
  | layout (error : LayoutError)
  | source (error : FileError)
  | assembly (error : Assembly.Error)
  | image (error : Image.FileProblem)
  | emptyProgram
  | load (error : LoadError)
  | save (error : Image.FileProblem)
  | fault (fault : Fault)
  deriving DecidableEq, Repr

/-- The failure in words. -/
def Failure.message : Failure → String
  | layoutFile name e => "Failed to load config " ++ String.ofList name ++ ": " ++ e.message
  | layout e => "Invalid layout: " ++ e.message
  | source e => "Failed to read file: " ++ e.message
  | assembly e => "Assembly error: " ++ e.message
  | image e => "Failed to load image: " ++ e.message
  | emptyProgram => "No instructions to execute"
  | load e => "Failed to load program: " ++ e.message
  | save e => "Failed to save image: " ++ e.message
  | fault f => "Execution fault: " ++ f.message

/-- A printed line. -/
def line (text : String) : String := text ++ "\n"

/-- The outcome of a command that succeeds. -/
def succeed (files : Files) (output : String) : Outcome := { output := output, files := files }

/-- The outcome of a command that fails. -/
def fail (files : Files) (output : String) (failure : Failure) : Outcome where
  exitCode := 1
  output := output
  errors := line ("❌ " ++ failure.message)
  files := files

end Accumulator.CommandLine
