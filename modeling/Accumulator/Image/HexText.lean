import Accumulator.Text.HexBytes

/-!
# Program images as hexadecimal text

An image in text form is a sequence of bytes, each written with two hexadecimal digits, between
blanks. A semicolon starts a comment that runs to the end of the line. The writer puts sixteen
bytes on a line and their address in a comment.
-/

namespace Accumulator.Image

/-- What is wrong with a word of an image. -/
inductive WordProblem
  /-- The word does not take two bytes in UTF-8. -/
  | wrongLength (word : Text)
  /-- The word takes two bytes and is no hexadecimal number. -/
  | notHex (word : Text)
  deriving DecidableEq, Repr

/-- A problem and the number of its line, counted from one. -/
structure TextError where
  line : Nat
  problem : WordProblem
  deriving DecidableEq, Repr

/-- The problem in words. -/
def WordProblem.message : WordProblem → String
  | wrongLength word => "expected a two-digit hex byte, found '" ++ String.ofList word ++ "'"
  | notHex word => "'" ++ String.ofList word ++ "': invalid digit found in string"

/-- The error in words. -/
def TextError.message (e : TextError) : String :=
  "parse error on line " ++ toString e.line ++ ": " ++ e.problem.message

/-- The byte that a word denotes. -/
def readWord (word : Text) : Except WordProblem UInt8 :=
  if word.byteCount ≠ 2 then .error (.wrongLength word)
  else match Numeral.readBelow? 16 256 word with
    | some n => .ok (UInt8.ofNat n)
    | none => .error (.notHex word)

/-- The words of a line in front of its comment. -/
def lineWords (line : Text) : List Text := Text.words (line.takeWhile (· != ';'))

/-- The bytes of a line with its number. -/
def readLine (line : Text × Nat) : Except TextError (List UInt8) :=
  ((lineWords line.1).mapM readWord).mapError (⟨line.2, ·⟩)

/-- The bytes of an image in text form; the first problem counts. -/
def readText (text : Text) : Except TextError (List UInt8) :=
  ((text.lines.zipIdx 1).mapM readLine).map List.flatten

/-- The number of bytes on a line. -/
def rowSize : Nat := 16

/-- Rows of a given size; the last one may be shorter. -/
def rows (bytes : List UInt8) : List (List UInt8) :=
  if bytes.isEmpty then [] else bytes.take rowSize :: rows (bytes.drop rowSize)
termination_by bytes.length
decreasing_by
  rename_i h
  cases bytes with
  | nil => simp at h
  | cons b rest =>
      simp only [rowSize, List.length_drop, List.length_cons]
      omega

/-- A row of bytes with its address as a comment. -/
def renderRow (row : List UInt8 × Nat) (base : Nat) : Text :=
  (HexBytes.spaced row.1).padRight 47 ++ " ; ".toList ++
    Numeral.hex 4 (base + row.2 * rowSize) ++ ['\n']

/-- The lines in front of the bytes. -/
def header (count : Nat) : Text :=
  "; ACC8 program image\n; ".toList ++ Numeral.decimal count ++ " bytes\n\n".toList

/-- An image in text form, for bytes that are to be loaded at an address. -/
def renderText (bytes : List UInt8) (base : UInt16) : Text :=
  header bytes.length ++ ((rows bytes).zipIdx.flatMap fun row => renderRow row base.toNat)

end Accumulator.Image
