import Accumulator.Json.Basic

/-!
# JSON tokens

A JSON text is a sequence of tokens with blanks between them. Reading goes character by character
and keeps what has been read of the current token; a token other than a string ends where a blank,
a quote or a punctuation mark follows.
-/

namespace Accumulator.Json

/-- The tokens of JSON. -/
inductive Token
  | openArray
  | closeArray
  | openObject
  | closeObject
  | comma
  | colon
  | null
  | bool (value : Bool)
  | number (value : JsonNumber)
  | string (value : JsonString)
  deriving DecidableEq, Repr

/-- The blanks of JSON. -/
def isSpace (c : Char) : Bool := c == ' ' || c == '\t' || c == '\n' || c == '\r'

/-- The token that a punctuation mark is. -/
def punctuation? : Char → Option Token
  | '[' => some .openArray
  | ']' => some .closeArray
  | '\x7b' => some .openObject
  | '\x7d' => some .closeObject
  | ',' => some .comma
  | ':' => some .colon
  | _ => none

/-- One or more digits, with what follows them. -/
def cutDigits? (s : Text) : Option (Text × Text) :=
  let digits := s.takeWhile Char.isDigit
  if digits.isEmpty then none else some (digits, s.dropWhile Char.isDigit)

/-- Digits to the end. -/
def isDigits (s : Text) : Bool := !s.isEmpty && s.all Char.isDigit

/-- Digits to the end, with an optional sign. -/
def isSignedDigits : Text → Bool
  | '+' :: rest | '-' :: rest => isDigits rest
  | s => isDigits s

/-- An exponent to the end, or nothing. -/
def isExponent : Text → Bool
  | [] => true
  | 'e' :: rest | 'E' :: rest => isSignedDigits rest
  | _ => false

/-- A fraction and an exponent to the end, either of which may be missing. -/
def isTail : Text → Bool
  | '.' :: rest =>
      match cutDigits? rest with
      | some (_, rest) => isExponent rest
      | none => false
  | s => isExponent s

/-- Whether digits are an integer part: no zero stands in front of other digits. -/
def isWhole : Text → Bool
  | ['0'] => true
  | '0' :: _ => false
  | s => isDigits s

/-- A number without its sign. -/
def readUnsigned? (negative : Bool) (s : Text) : Option JsonNumber :=
  let whole := s.takeWhile Char.isDigit
  let tail := s.dropWhile Char.isDigit
  if isWhole whole && isTail tail then (Numeral.read? 10 whole).map (⟨negative, ·, tail⟩) else none

/-- A number. -/
def readNumber? : Text → Option JsonNumber
  | '-' :: rest => readUnsigned? true rest
  | s => readUnsigned? false s

/-- The token that a run of other characters is. -/
def Token.ofAtom? (s : Text) : Option Token :=
  if s = ['n', 'u', 'l', 'l'] then some .null
  else if s = ['t', 'r', 'u', 'e'] then some (.bool true)
  else if s = ['f', 'a', 'l', 's', 'e'] then some (.bool false)
  else (readNumber? s).map .number

/-- A piece of a string: a character, or half of one. -/
inductive Piece
  | char (c : Char)
  /-- The upper or lower half of a character past the first 65536, from an escape. -/
  | half (unit : Nat)
  deriving DecidableEq, Repr

/-- Add the character or half that a four-digit escape denotes. A lower half joins an upper half
before it. Pieces are kept newest first. -/
def pushUnit (pieces : List Piece) (unit : Nat) : List Piece :=
  if 0xDC00 ≤ unit ∧ unit < 0xE000 then
    match pieces with
    | .half upper :: rest =>
        if upper < 0xDC00 then
          .char (Char.ofNat (0x10000 + (upper - 0xD800) * 0x400 + (unit - 0xDC00))) :: rest
        else .half unit :: pieces
    | _ => .half unit :: pieces
  else if 0xD800 ≤ unit ∧ unit < 0xDC00 then .half unit :: pieces
  else .char (Char.ofNat unit) :: pieces

/-- The text of pieces, newest first, if there is no half among them. -/
def textOf (pieces : List Piece) : JsonString :=
  pieces.foldl
    (fun text piece =>
      match text, piece with
      | some text, .char c => some (c :: text)
      | _, _ => none)
    (some [])

/-- What has been read of the current token. -/
inductive Reading
  /-- Nothing. -/
  | between
  /-- A run of characters, newest first. -/
  | atom (chars : List Char)
  /-- The inside of a string. -/
  | string (pieces : List Piece)
  /-- A string and a backslash. -/
  | escape (pieces : List Piece)
  /-- A string and some digits of a four-digit escape. -/
  | unicode (pieces : List Piece) (digits value : Nat)
  deriving DecidableEq, Repr

/-- The tokens read so far, and what has been read of the next one. -/
structure Lexer where
  tokens : Array Token
  reading : Reading

namespace Lexer

/-- Read a character that starts or separates tokens. -/
def start (tokens : Array Token) (c : Char) : Lexer :=
  if isSpace c then ⟨tokens, .between⟩
  else if c == '"' then ⟨tokens, .string []⟩
  else match punctuation? c with
    | some token => ⟨tokens.push token, .between⟩
    | none => ⟨tokens, .atom [c]⟩

/-- Whether a character ends a run. -/
def endsAtom (c : Char) : Bool := isSpace c || c == '"' || (punctuation? c).isSome

/-- The character that a backslash and a letter denote. -/
def escaped? : Char → Option Char
  | '"' => some '"'
  | '\\' => some '\\'
  | '/' => some '/'
  | 'b' => some '\x08'
  | 'f' => some '\x0c'
  | 'n' => some '\n'
  | 'r' => some '\r'
  | 't' => some '\t'
  | _ => none

/-- Read one character. -/
def step (lexer : Lexer) (c : Char) : Option Lexer :=
  let ⟨tokens, reading⟩ := lexer
  match reading with
  | .between => some (start tokens c)
  | .atom chars =>
      if endsAtom c then (Token.ofAtom? chars.reverse).map fun token => start (tokens.push token) c
      else some ⟨tokens, .atom (c :: chars)⟩
  | .string pieces =>
      if c == '"' then some ⟨tokens.push (.string (textOf pieces)), .between⟩
      else if c == '\\' then some ⟨tokens, .escape pieces⟩
      else if c.toNat < 0x20 then none
      else some ⟨tokens, .string (.char c :: pieces)⟩
  | .escape pieces =>
      if c == 'u' then some ⟨tokens, .unicode pieces 0 0⟩
      else (escaped? c).map fun d => ⟨tokens, .string (.char d :: pieces)⟩
  | .unicode pieces digits value =>
      match Numeral.digitValue? 16 c with
      | none => none
      | some d =>
          if digits = 3 then some ⟨tokens, .string (pushUnit pieces (16 * value + d))⟩
          else some ⟨tokens, .unicode pieces (digits + 1) (16 * value + d)⟩

/-- Read the characters of a text. -/
def feed (lexer : Lexer) : Text → Option Lexer
  | [] => some lexer
  | c :: rest =>
      match lexer.step c with
      | some next => next.feed rest
      | none => none

/-- The tokens at the end of a text. -/
def finish (lexer : Lexer) : Option (List Token) :=
  match lexer.reading with
  | .between => some lexer.tokens.toList
  | .atom chars => (Token.ofAtom? chars.reverse).map fun token => (lexer.tokens.push token).toList
  | _ => none

end Lexer

/-- The tokens of a text. -/
def tokens? (s : Text) : Option (List Token) :=
  match Lexer.feed ⟨#[], .between⟩ s with
  | some lexer => lexer.finish
  | none => none

end Accumulator.Json
