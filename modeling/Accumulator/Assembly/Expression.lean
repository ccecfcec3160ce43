import Accumulator.Assembly.Error

/-!
# Expressions

An operand is a sum of terms, each a number or a label, added and subtracted from left to right.
Reading an expression never fails: a term that is empty or starts like a number without being one
is kept as such, and the failure shows when the expression is evaluated.

Values are signed 64-bit numbers. A sum may be none, and what becomes of it depends on how the
program was built: with checks it stops at such a sum, without them it goes on with its lowest 64
bits. So the evaluation of an expression, and with it the assembly of a source, is one of two.
-/

namespace Accumulator.Assembly

/-- The labels defined so far, in upper case, with their addresses. -/
abbrev Symbols := List (Text × Nat)

/-- The address of a label, in letters of either case. -/
def Symbols.find? (symbols : Symbols) (label : Text) : Option Nat := symbols.lookup label.upper

/-- One term of an expression, as far as its text alone decides it. -/
inductive Term
  | missing
  | number (value : Int)
  | malformed (text : Text)
  | label (name : Text)
  deriving DecidableEq, Repr

/-- The operators between terms. -/
inductive Sign
  | plus
  | minus
  deriving DecidableEq, Repr

/-- A sum of terms that groups to the left. -/
inductive Expression
  | term (term : Term)
  | sum (left : Expression) (sign : Sign) (right : Term)
  deriving DecidableEq, Repr

/-- Numbers are signed 64-bit integers; a magnitude stays below this bound. -/
def magnitudeBound : Nat := 0x8000000000000000

/-- The signed 64-bit numbers. -/
def Is64Bit (v : Int) : Prop := -magnitudeBound ≤ v ∧ v < magnitudeBound

instance : DecidablePred Is64Bit := fun _ => inferInstanceAs (Decidable (_ ∧ _))

/-- A number without a sign: hexadecimal, binary, a character between quotes, or decimal. -/
def magnitude? : Text → Option Nat
  | '0' :: 'x' :: digits | '0' :: 'X' :: digits =>
      (Numeral.read? 16 digits).filter (· < magnitudeBound)
  | '0' :: 'b' :: digits | '0' :: 'B' :: digits =>
      (Numeral.read? 2 digits).filter (· < magnitudeBound)
  | ['\'', c, '\''] => if c.toNat < 128 then some c.toNat else none
  | digits => (Numeral.read? 10 digits).filter (· < magnitudeBound)

/-- A number with an optional sign. A plus sign stands before decimal digits only. -/
def number? : Text → Option Int
  | '-' :: rest => (magnitude? rest).map fun n => -(n : Int)
  | '+' :: rest => ((Numeral.read? 10 rest).filter (· < magnitudeBound)).map fun n => (n : Int)
  | text => (magnitude? text).map fun n => (n : Int)

/-- Whether a text that is no number was meant as one. -/
def looksNumeric : Text → Bool
  | [] => false
  | c :: _ => c.isDigit || c == '-' || c == '\''

/-- Read a term. -/
def Term.ofText (text : Text) : Term :=
  if text.isEmpty then .missing
  else match number? text with
    | some value => .number value
    | none => if looksNumeric text then .malformed text else .label text

/-- The value of a term. -/
def Term.eval (symbols : Symbols) : Term → Except Problem Int
  | missing => .error .missingTerm
  | number value => .ok value
  | malformed text => .error (.invalidNumber text)
  | label name =>
      match symbols.find? name with
      | some address => .ok address
      | none => .error (.undefinedLabel name)

/-- The operator that a character stands for. -/
def Sign.ofChar? : Char → Option Sign
  | '+' => some .plus
  | '-' => some .minus
  | _ => none

/-- The exact value of a sum or a difference. -/
def Sign.exact : Sign → Int → Int → Int
  | plus, a, b => a + b
  | minus, a, b => a - b

/-! ## Values in 64 bits -/

/-- What becomes of a sum that is no signed 64-bit number. -/
inductive Overflow
  /-- A build with checks stops there, and gives neither a program nor an error. -/
  | stops
  /-- A build without checks keeps the lowest 64 bits. -/
  | wraps
  deriving DecidableEq, Repr

/-- What is made of the exact value of a sum. -/
def Overflow.settle : Overflow → Int → Except Problem Int
  | stops, v => if Is64Bit v then .ok v else .error .overflow
  | wraps, v => .ok (v.bmod 0x10000000000000000)

theorem is64Bit_bmod (v : Int) : Is64Bit (v.bmod 0x10000000000000000) :=
  ⟨Int.le_bmod (by decide), Int.bmod_lt (by decide)⟩

theorem Is64Bit.bmod_eq {v : Int} (h : Is64Bit v) : v.bmod 0x10000000000000000 = v :=
  Int.bmod_eq_of_le h.1 h.2

/-- Nothing happens to a 64-bit number. -/
theorem Overflow.settle_of_is64Bit (overflow : Overflow) {v : Int} (h : Is64Bit v) :
    overflow.settle v = .ok v := by
  cases overflow with
  | stops => exact if_pos h
  | wraps => exact congrArg Except.ok h.bmod_eq

/-- What is left of any value is its lowest 64 bits. -/
theorem Overflow.eq_bmod_of_settle {overflow : Overflow} {v w : Int}
    (h : overflow.settle v = .ok w) : w = v.bmod 0x10000000000000000 := by
  cases overflow with
  | stops =>
      rw [settle] at h
      split at h
      · rename_i hv
        rw [hv.bmod_eq]
        exact (Except.ok.inj h).symm
      · cases h
  | wraps => exact (Except.ok.inj h).symm

theorem Overflow.is64Bit_of_settle {overflow : Overflow} {v w : Int}
    (h : overflow.settle v = .ok w) : Is64Bit w :=
  Overflow.eq_bmod_of_settle h ▸ is64Bit_bmod v

/-- Add or subtract 64-bit numbers. -/
def Sign.apply (sign : Sign) (overflow : Overflow) (a b : Int) : Except Problem Int :=
  overflow.settle (sign.exact a b)

/-- Cut a text at its last operator. -/
def cutAtLastSign : Text → Option (Text × Sign × Text)
  | [] => none
  | c :: rest =>
      match cutAtLastSign rest with
      | some (before, sign, after) => some (c :: before, sign, after)
      | none => (Sign.ofChar? c).map fun sign => ([], sign, rest)

theorem length_of_cutAtLastSign {text before after : Text} {sign : Sign}
    (h : cutAtLastSign text = some (before, sign, after)) :
    before.length + 1 + after.length = text.length := by
  induction text generalizing before with
  | nil => simp [cutAtLastSign] at h
  | cons c rest ih =>
      rw [cutAtLastSign] at h
      split at h
      · rename_i b s a heq
        simp only [Option.some.injEq, Prod.mk.injEq] at h
        obtain ⟨rfl, rfl, rfl⟩ := h
        have := ih heq
        simp only [List.length_cons]
        omega
      · cases hs : Sign.ofChar? c with
        | none => simp [hs] at h
        | some s =>
            simp only [hs, Option.map_some, Option.some.injEq, Prod.mk.injEq] at h
            obtain ⟨rfl, rfl, rfl⟩ := h
            simp [Nat.add_comm]

/-- Read an expression. The last operator that has text before it separates the last term, unless
the text starts with a quote: then all of it is one term. -/
def Expression.ofText (text : Text) : Expression :=
  match _h : cutAtLastSign text.trim with
  | some (first :: before, sign, after) =>
      if first = '\'' then .term (Term.ofText text.trim)
      else .sum (Expression.ofText (first :: before)) sign (Term.ofText after.trim)
  | _ => .term (Term.ofText text.trim)
termination_by text.length
decreasing_by
  have hcut := length_of_cutAtLastSign _h
  have htrim := Text.length_trim_le text
  omega

/-- The value of an expression; of several problems, the leftmost is reported. -/
def Expression.eval (overflow : Overflow) (symbols : Symbols) : Expression → Except Problem Int
  | term t => t.eval symbols
  | sum left sign right =>
      match left.eval overflow symbols with
      | .error problem => .error problem
      | .ok a =>
          match right.eval symbols with
          | .error problem => .error problem
          | .ok b => sign.apply overflow a b

end Accumulator.Assembly
