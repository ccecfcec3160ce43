import Accumulator.Assembly.Program
import Accumulator.CommandLine.Command
import Accumulator.CommandLine.Outcome

/-!
# Loading programs

A layout is the standard one, changed by a file and then by options. A program is an assembly
source if its name ends in `.asm`, and an image otherwise. A machine is made from the layout, and
the program is loaded at the start of its heap.

## Implementation notes

The commands are those of a build without checks, in which a sum of a source goes on with its lowest
64 bits. A build with checks assembles the same bytes wherever it does not stop at such a sum.
-/

namespace Accumulator.CommandLine

/-- The layout in a file, which has to be valid by itself. -/
def readLayoutFile (files : Files) (name : Text) : Except LayoutFileError Layout :=
  match files.readText name with
  | .error e => .error (.file e)
  | .ok text => (Layout.ofText text).mapError .text

/-- The layout to start from. -/
def baseLayout (files : Files) : Option Text → Except Failure Layout
  | none => .ok .standard
  | some name => (readLayoutFile files name).mapError (.layoutFile name)

/-- Change a layout by options. -/
def overrideLayout (layout : Layout) (options : LayoutOptions) : Layout where
  capacity := options.capacity.getD layout.capacity
  heapStart := options.heapStart.getD layout.heapStart
  stackStart := options.stackStart.getD layout.stackStart

/-- The layout that options ask for, which need not be valid. -/
def resolveLayout (files : Files) (options : LayoutOptions) : Except Failure Layout :=
  (baseLayout files options.file).map fun layout => overrideLayout layout options

/-- The end of the name of an assembly source. -/
def sourceSuffix : Text := ".asm".toList

/-- Whether a file with a name holds assembly source. -/
def isSource (name : Text) : Bool := sourceSuffix.isSuffixOf name

/-- Read a source text and assemble it for an address. -/
def readSource (files : Files) (name : Text) (base : UInt16) : Except Failure (List UInt8) :=
  match files.readText name with
  | .error e => .error (.source e)
  | .ok text => (assemble text base).mapError .assembly

/-- Read a program that may be empty. -/
def readBytes (files : Files) (name : Text) (base : UInt16) : Except Failure (List UInt8) :=
  if isSource name then readSource files name base else (Image.load files name).mapError .image

/-- Read a program that is to be loaded at an address. -/
def readProgram (files : Files) (name : Text) (base : UInt16) : Except Failure (List UInt8) :=
  match readBytes files name base with
  | .error failure => .error failure
  | .ok bytes => if bytes.isEmpty then .error .emptyProgram else .ok bytes

/-- A machine with the program in a file, and the program. -/
def loadMachine (files : Files) (name : Text) (options : LayoutOptions) :
    Except Failure (Machine × List UInt8) :=
  match resolveLayout files options with
  | .error failure => .error failure
  | .ok layout =>
      match Machine.ofLayout layout with
      | .error e => .error (.layout e)
      | .ok m =>
          match readProgram files name layout.heapStart with
          | .error failure => .error failure
          | .ok program =>
              match m.loadProgram program with
              | .error e => .error (.load e)
              | .ok loaded => .ok (loaded, program)

end Accumulator.CommandLine
