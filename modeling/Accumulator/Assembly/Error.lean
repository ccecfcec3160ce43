import Accumulator.Text.Numeral

/-!
# Assembly errors

An error is a problem together with the number of the line it was found on, counted from one.
-/

namespace Accumulator.Assembly

/-- What is wrong with a source line. -/
inductive Problem
  /-- A label is not a letter or underscore followed by letters, digits and underscores. -/
  | invalidLabel (label : Text)
  /-- A label is defined a second time. -/
  | duplicateLabel (label : Text)
  /-- A term names no label. -/
  | undefinedLabel (label : Text)
  /-- The first word of a statement is neither a mnemonic nor a directive. -/
  | unknownMnemonic (word : Text)
  /-- An operand follows a mnemonic that has none. -/
  | unexpectedOperand (mnemonic : Text)
  /-- A mnemonic lacks its operand. -/
  | missingOperand (mnemonic : Text)
  /-- A data directive has no list of values, or an empty place in it. -/
  | missingValues (directive : Text)
  /-- The origin directive lacks its address. -/
  | missingAddress
  /-- The origin directive names an address that is already behind. -/
  | backwardOrigin
  /-- The statement ends past the last address. -/
  | pastLastAddress
  /-- A term of an expression is empty. -/
  | missingTerm
  /-- A term starts like a number and is none. -/
  | invalidNumber (term : Text)
  /-- A value does not fit where it is used. -/
  | outOfRange (value : Int)
  /-- A sum is no 64-bit number. A build that checks its arithmetic stops there, without an error of
  its own. -/
  | overflow
  deriving DecidableEq, Repr

/-- A problem on a line. -/
structure Error where
  line : Nat
  problem : Problem
  deriving DecidableEq, Repr

/-- What the classes of problems have in common, in words. -/
inductive ProblemClass
  | malformed
  | unknownMnemonic
  | undefinedLabel
  | duplicateLabel
  | outOfRange
  deriving DecidableEq, Repr

namespace Problem

/-- The class of a problem; whatever breaks the form of a line is malformed. A stop at a sum is no
error that is reported, and is counted among the values out of range. -/
def problemClass : Problem → ProblemClass
  | unknownMnemonic _ => .unknownMnemonic
  | undefinedLabel _ => .undefinedLabel
  | duplicateLabel _ => .duplicateLabel
  | outOfRange _ | overflow => .outOfRange
  | _ => .malformed

/-- The part of the message that depends on the problem. The text for a stop at a sum stands for
what is printed where a build with checks ends. -/
def detail : Problem → Text
  | invalidLabel label => "invalid label '".toList ++ label ++ ['\'']
  | duplicateLabel label => label
  | undefinedLabel label => label
  | unknownMnemonic word => word
  | unexpectedOperand mnemonic => mnemonic ++ " takes no operand".toList
  | missingOperand mnemonic => mnemonic ++ " requires an operand".toList
  | missingValues directive => directive ++ " requires values".toList
  | missingAddress => "ORG requires an address".toList
  | backwardOrigin => "ORG cannot move backwards".toList
  | pastLastAddress => "program extends past the 64K address space".toList
  | missingTerm => "missing value".toList
  | invalidNumber term => "invalid number '".toList ++ term ++ ['\'']
  | outOfRange value => Numeral.signedDecimal value
  | overflow => "arithmetic overflow".toList

end Problem

/-- The name of a class in messages. -/
def ProblemClass.title : ProblemClass → String
  | malformed => "syntax error"
  | unknownMnemonic => "unknown mnemonic"
  | undefinedLabel => "undefined label"
  | duplicateLabel => "duplicate label"
  | outOfRange => "value out of range"

/-- The error in words. -/
def Error.message (e : Error) : String :=
  e.problem.problemClass.title ++ " on line " ++ toString e.line ++ ": " ++
    String.ofList e.problem.detail

end Accumulator.Assembly
