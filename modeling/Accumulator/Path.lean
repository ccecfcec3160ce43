import Accumulator.Text.Basic

/-!
# Paths

A path is cut at its slashes into names. It starts at the root directory if it starts with a slash,
and at the working directory otherwise. A period stays where it is, two periods step up, and any
other name steps down.
-/

namespace Accumulator

/-- Why a file cannot be read or written. -/
inductive FileError
  | notFound
  | notDirectory
  | isDirectory
  | nameTooLong
  /-- The path holds the character NUL. -/
  | nulInName
  /-- The content is not UTF-8. -/
  | notText
  deriving DecidableEq, Repr

/-- The error in words. -/
def FileError.message : FileError → String
  | notFound => "No such file or directory (os error 2)"
  | notDirectory => "Not a directory (os error 20)"
  | isDirectory => "Is a directory (os error 21)"
  | nameTooLong => "File name too long (os error 36)"
  | nulInName => "file name contained an unexpected NUL byte"
  | notText => "stream did not contain valid UTF-8"

/-- A place in the tree of directories: the names from the root down to it. -/
abbrev Location := List Text

/-- The place that a name leads to, whether or not anything is there. -/
def Location.next (here : Location) (name : Text) : Location :=
  if name = ['.'] then here
  else if name = ['.', '.'] then here.dropLast
  else here ++ [name]

/-- A path cut at its slashes. -/
structure Path where
  /-- The path starts at the root directory. -/
  absolute : Bool
  /-- What stands between the slashes, without the empty names. -/
  names : List Text
  /-- The path ends with a slash, so that it can only mean a directory. -/
  closed : Bool
  deriving DecidableEq, Repr

namespace Path

/-- Cut a path at its slashes. -/
def ofText (text : Text) : Path where
  absolute := text.head? = some '/'
  names := (text.pieces (· == '/')).filter fun name => !name.isEmpty
  closed := text.getLast? = some '/'

/-- The most bytes in a name. -/
def nameLimit : Nat := 255

/-- The most bytes in a path. -/
def lengthLimit : Nat := 4095

/-- Why a text cannot be a path. -/
def problem? (text : Text) : Option FileError :=
  if text.contains (Char.ofNat 0) then some .nulInName
  else if text.isEmpty then some .notFound
  else if text.byteCount > lengthLimit then some .nameTooLong
  else none

/-- The name of what a path means, unless the path ends by stepping up. -/
def fileName? (path : Path) : Option Text :=
  match (path.names.filter (· != ['.'])).getLast? with
  | some name => if name = ['.', '.'] then none else some name
  | none => none

/-- What follows the last period of a name, unless the name starts with it. -/
def extension? (name : Text) : Option Text :=
  let stem := (name.reverse.dropWhile (· != '.')).drop 1
  if stem.isEmpty then none else some (name.reverse.takeWhile (· != '.')).reverse

end Path
end Accumulator
