import Accumulator.Json.Token

/-!
# Reading JSON values

A value is read token by token with a stack of the arrays and objects that are still open, so that
nesting costs no recursion. Whatever is not exactly one value is refused.
-/

namespace Accumulator.Json

/-- An array or object that is still open. Items and fields are kept newest first. -/
inductive Frame
  | array (items : List Json)
  /-- An object whose next value belongs to a key. -/
  | object (fields : List (JsonString × Json)) (key : JsonString)

/-- What may come next. -/
inductive State
  /-- A value. -/
  | value (stack : List Frame)
  /-- The first item of an array, or its end. -/
  | firstItem (stack : List Frame)
  /-- The first key of an object, or its end. -/
  | firstKey (stack : List Frame)
  /-- The next key of an object. -/
  | key (stack : List Frame) (fields : List (JsonString × Json))
  /-- The colon after a key. -/
  | colon (stack : List Frame) (fields : List (JsonString × Json)) (key : JsonString)
  /-- What follows a complete value. -/
  | done (stack : List Frame) (value : Json)

/-- Read the first token of a value. -/
def beginValue (stack : List Frame) : Token → Option State
  | .null => some (.done stack .null)
  | .bool b => some (.done stack (.bool b))
  | .number n => some (.done stack (.number n))
  | .string s => some (.done stack (.string s))
  | .openArray => some (.firstItem stack)
  | .openObject => some (.firstKey stack)
  | _ => none

/-- Read the token after a value. -/
def endValue (value : Json) : List Frame → Token → Option State
  | .array items :: stack, .comma => some (.value (.array (value :: items) :: stack))
  | .array items :: stack, .closeArray => some (.done stack (.array (value :: items).reverse))
  | .object fields key :: stack, .comma => some (.key stack ((key, value) :: fields))
  | .object fields key :: stack, .closeObject =>
      some (.done stack (.object ((key, value) :: fields).reverse))
  | _, _ => none

/-- Read one token. -/
def State.step : State → Token → Option State
  | value stack, token => beginValue stack token
  | firstItem stack, .closeArray => some (done stack (.array []))
  | firstItem stack, token => beginValue (.array [] :: stack) token
  | firstKey stack, .closeObject => some (done stack (.object []))
  | firstKey stack, .string name => some (colon stack [] name)
  | key stack fields, .string name => some (colon stack fields name)
  | colon stack fields name, .colon => some (value (.object fields name :: stack))
  | done stack complete, token => endValue complete stack token
  | _, _ => none

/-- Read the tokens of a sequence. -/
def State.feed (state : State) : List Token → Option State
  | [] => some state
  | token :: rest =>
      match state.step token with
      | some next => next.feed rest
      | none => none

/-- The value that a sequence of tokens is. -/
def ofTokens? (tokens : List Token) : Option Json :=
  match State.feed (.value []) tokens with
  | some (.done [] value) => some value
  | _ => none

/-- The value that a text is. -/
def read? (s : Text) : Option Json := (tokens? s).bind ofTokens?

end Accumulator.Json
