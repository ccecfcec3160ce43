import Accumulator.Files
import Accumulator.Image.HexText

/-!
# Image files

The name of an image file selects its format: with the extension `bin`, in letters of either case,
the file holds the bytes themselves, and with any other name it holds them as text.
-/

namespace Accumulator.Image

/-- Why an image file cannot be read or written. -/
inductive FileProblem
  /-- The file itself is not accessible. -/
  | file (error : FileError)
  /-- The text of the file is not an image. -/
  | text (error : TextError)
  deriving DecidableEq, Repr

/-- The problem in words. -/
def FileProblem.message : FileProblem → String
  | file error => "I/O error: " ++ error.message
  | text error => error.message

/-- Whether a file with a name holds bytes. -/
def isBinary (name : Text) : Bool :=
  match (Path.ofText name).fileName?.bind Path.extension? with
  | some ext => ext.upper == ['B', 'I', 'N']
  | none => false

/-- The content of an image file with a name. -/
def encode (name : Text) (bytes : List UInt8) (base : UInt16) : ByteArray :=
  if isBinary name then ⟨bytes.toArray⟩ else Files.encodeText (renderText bytes base)

/-- The bytes in an image file with a name. -/
def decode (name : Text) (content : ByteArray) : Except FileProblem (List UInt8) :=
  if isBinary name then .ok content.data.toList
  else match String.fromUTF8? content with
    | some text => (readText text.toList).mapError .text
    | none => .error (.file .notText)

/-- Load an image file. -/
def load (files : Files) (name : Text) : Except FileProblem (List UInt8) :=
  match files.read name with
  | .error e => .error (.file e)
  | .ok content => decode name content

/-- Save an image file. -/
def save (files : Files) (name : Text) (bytes : List UInt8) (base : UInt16) :
    Except FileProblem Files :=
  (files.write name (encode name bytes base)).mapError .file

end Accumulator.Image
