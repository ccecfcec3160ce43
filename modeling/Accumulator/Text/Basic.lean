/-!
# Text as a list of characters

All grammars of this library read and write lists of characters; `String` appears only at the
edges. This module holds what the grammars share: the blank characters, trimming, cutting a text
at separators, lines, and padding to a column.

## Implementation notes

The cutting functions are right folds, so that long texts are cut without deep recursion and the
equations for `cons` and `append` hold by computation.
-/

namespace Accumulator

/-- A text is a list of characters. -/
abbrev Text := List Char

namespace Text

/-- The characters with the Unicode property White_Space, as inclusive ranges of code points. -/
def blankRanges : List (Nat × Nat) :=
  [(0x09, 0x0D), (0x20, 0x20), (0x85, 0x85), (0xA0, 0xA0), (0x1680, 0x1680), (0x2000, 0x200A),
    (0x2028, 0x2029), (0x202F, 0x202F), (0x205F, 0x205F), (0x3000, 0x3000)]

/-- A blank is a character with the Unicode property White_Space. -/
def isBlank (c : Char) : Bool :=
  blankRanges.any fun range => range.1 ≤ c.toNat && c.toNat ≤ range.2

/-- Drop the blanks at the end. -/
def trimRight (text : Text) : Text :=
  text.foldr (fun c kept => if isBlank c && kept.isEmpty then [] else c :: kept) []

/-- Drop the blanks at both ends. -/
def trim (text : Text) : Text := trimRight (text.dropWhile isBlank)

/-- Add one character in front of the first piece. -/
def extendFirst (c : Char) : List Text → List Text
  | [] => [[c]]
  | piece :: pieces => (c :: piece) :: pieces

/-- The pieces between separators; one more piece than there are separators. -/
def pieces (isSeparator : Char → Bool) (text : Text) : List Text :=
  text.foldr (fun c rest => if isSeparator c then [] :: rest else extendFirst c rest) [[]]

/-- The maximal runs of characters that are not blank. -/
def words (text : Text) : List Text := (pieces isBlank text).filter fun word => !word.isEmpty

/-- Cut at the first character of a class, which belongs to neither part. -/
def cutAtFirst (isSeparator : Char → Bool) (text : Text) : Option (Text × Text) :=
  match text.dropWhile fun c => !isSeparator c with
  | [] => none
  | _ :: after => some (text.takeWhile fun c => !isSeparator c, after)

/-- Drop one carriage return at the end, if there is one. -/
def dropReturn (line : Text) : Text :=
  if line.getLast? = some '\r' then line.dropLast else line

/-- The lines of a text. A line feed ends a line and takes a carriage return before it along; what
follows the last line feed is a line only if it is not empty. -/
def lines (text : Text) : List Text :=
  let cut := pieces (· == '\n') text
  cut.dropLast.map dropReturn ++ cut.getLast?.toList.filter fun line => !line.isEmpty

/-- Upper-case the letters of ASCII. -/
def upper (text : Text) : Text := text.map Char.toUpper

/-- The number of bytes in UTF-8. -/
def byteCount (text : Text) : Nat := text.foldr (fun c count => c.utf8Size + count) 0

/-- Join texts with a separator between neighbours. -/
def join (separator : Text) (texts : List Text) : Text := (texts.intersperse separator).flatten

/-- Fill with blanks on the right to a least width. -/
def padRight (width : Nat) (text : Text) : Text :=
  text ++ List.replicate (width - text.length) ' '

/-- Fill with blanks on the left to a least width. -/
def padLeft (width : Nat) (text : Text) : Text :=
  List.replicate (width - text.length) ' ' ++ text

@[simp] theorem trimRight_nil : trimRight [] = [] := rfl

theorem trimRight_cons (c : Char) (text : Text) :
    trimRight (c :: text) =
      if isBlank c && (trimRight text).isEmpty then [] else c :: trimRight text := rfl

theorem length_trimRight_le (text : Text) : (trimRight text).length ≤ text.length := by
  induction text with
  | nil => simp
  | cons c text ih =>
      rw [trimRight_cons]
      split
      · exact Nat.zero_le _
      · exact Nat.succ_le_succ ih

theorem length_trim_le (text : Text) : text.trim.length ≤ text.length :=
  Nat.le_trans (length_trimRight_le _) (List.dropWhile_suffix _).length_le

@[simp] theorem pieces_nil (p : Char → Bool) : pieces p [] = [[]] := rfl

theorem pieces_cons (p : Char → Bool) (c : Char) (text : Text) :
    pieces p (c :: text) =
      if p c then [] :: pieces p text else extendFirst c (pieces p text) := rfl

theorem pieces_ne_nil (p : Char → Bool) (text : Text) : pieces p text ≠ [] := by
  cases text with
  | nil => simp
  | cons c text =>
      rw [pieces_cons]
      split
      · simp
      · cases pieces p text <;> simp [extendFirst]

end Text
end Accumulator
