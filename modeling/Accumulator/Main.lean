import Accumulator.CommandLine.Dispatch
import Accumulator.Debugger.Key
import Accumulator.Debugger.View

/-!
# The program

The files that a command names are read, the command is carried out on them, and what it printed
and wrote is passed on. A debugging session shows a screen, reads a line of keys and lets one slice
of a run pass, until a line asks to quit or there are no more lines.
-/

open Accumulator

namespace Accumulator.Program

/-- Whether a name is that of a directory: only a directory holds itself. -/
def isDirectory (name : Text) : IO Bool :=
  try
    discard (IO.FS.Handle.mk (String.ofList (name ++ ['/', '.'])) .read)
    return true
  catch _ => return false

/-- The part of a name before each of its slashes, and the whole name. -/
def leadingParts (name : Text) : List Text :=
  (List.range (name.length + 1)).filterMap fun n =>
    if n = name.length || name[n]? = some '/' then some (name.take n) else none

/-- Add what a name stands for, as far as it is there. -/
def addNamed (files : Files) (name : Text) : IO Files := do
  if ← isDirectory name then return files.addDirectory name
  try
    return files.add name (← IO.FS.readBinFile (String.ofList name))
  catch _ => return files

/-- Add what there is along a path. -/
def addAlong (files : Files) (name : Text) : IO Files :=
  (leadingParts name).foldlM addNamed files

/-- The working directory, without any files. -/
def workingDirectory : IO Files := do
  let path := Path.ofText (toString (← IO.currentDir)).toList
  return { Files.empty with working := path.names }

/-- Write a file to disk, if it has been written to. -/
def writeBack (before after : Files) (name : Text) : IO Unit := do
  match before.read name, after.read name with
  | .ok old, .ok new =>
      if old.data != new.data then IO.FS.writeBinFile (String.ofList name) new
  | _, .ok new => IO.FS.writeBinFile (String.ofList name) new
  | _, _ => return

/-- Show the screen of a session. -/
def showScreen (s : Session) : IO Unit :=
  (s.draw 80 24).forM fun row => IO.println (String.ofList (row.map Cell.glyph))

/-- Read lines of keys and show what they do. -/
partial def interact (input : IO.FS.Stream) (s : Session) : IO Unit := do
  showScreen s
  let keys ← input.getLine
  unless keys.isEmpty || keys.contains 'q' do
    interact input (s.pressAll (keys.toList.filterMap Key.ofChar?)).tick

/-- Debug a program, if it can be loaded. -/
def debug (files : Files) : CommandLine.Command → IO Unit
  | .debug program options =>
      match CommandLine.openSession files program options with
      | .ok s => do interact (← IO.getStdin) s
      | .error _ => return
  | _ => return

/-- Carry out a command. -/
def carryOut (command : CommandLine.Command) : IO UInt32 := do
  let names := command.inputs ++ command.output?.toList
  let files ← names.foldlM addAlong (← workingDirectory)
  let outcome := command.perform files
  command.output?.forM (writeBack files outcome.files)
  IO.print outcome.output
  IO.eprint outcome.errors
  debug files command
  return UInt32.ofNat outcome.exitCode

end Accumulator.Program

/-- Carry out what the arguments ask for. -/
def main (args : List String) : IO UInt32 := do
  match CommandLine.Command.ofArguments? (args.map String.toList) with
  | some command => Program.carryOut command
  | none =>
      IO.eprint CommandLine.misuseText
      return 2
