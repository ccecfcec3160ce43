import Accumulator.Assembly.Program
import Accumulator.Instruction.Printing
import Accumulator.Proofs.Text.Cutting
import Accumulator.Proofs.Text.Numerals

/-!
# Operands that are numerals

A numeral as the printer writes it is one term of an expression, read as the number it was written
for. It needs no labels, and as a value of its own width it goes back to the bytes it came from.
-/

namespace Accumulator.Assembly

open Text

/-- A text of letters and digits that the assembler reads as a number. -/
structure IsNumeral (text : Text) (value : Nat) : Prop where
  ne_nil : text ≠ []
  names : ∀ c ∈ text, isNameChar c = true
  number : number? text = some (value : Int)

theorem number?_of_hex {text : Text} {value : Nat} (h : Numeral.read? 16 text = some value)
    (hlt : value < magnitudeBound) : number? ('0' :: 'x' :: text) = some (value : Int) := by
  have hmagnitude : magnitude? ('0' :: 'x' :: text) = some value := by
    simp [magnitude?, h, hlt]
  simp [number?, hmagnitude]

theorem number?_of_digits {text : Text} {value : Nat} (hdigits : ∀ c ∈ text, c.isDigit = true)
    (h : Numeral.read? 10 text = some value) (hlt : value < magnitudeBound) :
    number? text = some (value : Int) := by
  have hmagnitude : magnitude? text = some value := by
    unfold magnitude?
    split
    · simp [Char.isDigit] at hdigits
    · simp [Char.isDigit] at hdigits
    · simp [Char.isDigit] at hdigits
    · simp [Char.isDigit] at hdigits
    · simp [Char.isDigit] at hdigits
    · simp [h, hlt]
  unfold number?
  split
  · simp [Char.isDigit] at hdigits
  · simp [Char.isDigit] at hdigits
  · simp [hmagnitude]

theorem isNumeral_marked (b : UInt8) : IsNumeral (HexBytes.marked b) b.toNat where
  ne_nil := by simp [HexBytes.marked]
  names := by
    simp only [HexBytes.marked, List.forall_mem_cons]
    refine ⟨rfl, rfl, ?_⟩
    intro c hc
    exact isNameChar_of_isAlphanum (HexBytes.isAlphanum_of_mem_byte hc)
  number := number?_of_hex (HexBytes.read?_byte b)
    (Nat.lt_of_lt_of_le b.toNat_lt (by decide))

theorem isNumeral_word (w : UInt16) : IsNumeral ('0' :: 'x' :: HexBytes.word w) w.toNat where
  ne_nil := by simp
  names := by
    simp only [List.forall_mem_cons]
    refine ⟨rfl, rfl, ?_⟩
    intro c hc
    exact isNameChar_of_isAlphanum (Numeral.isAlphanum_of_mem_hex hc)
  number := number?_of_hex (Numeral.read?_hex 4 w.toNat)
    (Nat.lt_of_lt_of_le w.toNat_lt (by decide))

theorem isNumeral_decimal {n : Nat} (h : n < magnitudeBound) :
    IsNumeral (Numeral.decimal n) n where
  ne_nil := Numeral.decimal_ne_nil n
  names := by
    intro c hc
    apply isNameChar_of_isAlphanum
    simp [Char.isAlphanum, Numeral.isDigit_of_mem_decimal hc]
  number := by
    apply number?_of_digits _ (Numeral.read?_decimal n) h
    intro c hc
    exact Numeral.isDigit_of_mem_decimal hc

theorem cutAtLastSign_eq_none_of_forall {text : Text} (h : ∀ c ∈ text, Sign.ofChar? c = none) :
    cutAtLastSign text = none := by
  induction text with
  | nil => rfl
  | cons c rest ih =>
      rw [List.forall_mem_cons] at h
      rw [cutAtLastSign, ih h.2, h.1]
      rfl

theorem signOfChar?_of_isNameChar {c : Char} (h : isNameChar c = true) :
    Sign.ofChar? c = none := by
  unfold Sign.ofChar?
  split
  · cases h
  · cases h
  · rfl

theorem cutAtLastSign_eq_none {text : Text} (h : ∀ c ∈ text, isNameChar c = true) :
    cutAtLastSign text = none :=
  cutAtLastSign_eq_none_of_forall fun c hc => signOfChar?_of_isNameChar (h c hc)

theorem IsNumeral.term {text : Text} {value : Nat} (h : IsNumeral text value) :
    Term.ofText text = .number value := by
  simp [Term.ofText, h.ne_nil, h.number]

/-- The expression that a numeral for a value is read as. -/
def literal (value : Nat) : Expression := .term (.number value)

@[simp] theorem eval_literal (overflow : Overflow) (symbols : Symbols) (value : Nat) :
    (literal value).eval overflow symbols = .ok (value : Int) := rfl

/-- A numeral is a whole expression. -/
theorem IsNumeral.expression {text : Text} {value : Nat} (h : IsNumeral text value) :
    Expression.ofText text = literal value := by
  have htrim : text.trim = text := (tight_of_isNameChar h.names).trim_self
  rw [Expression.ofText]
  split
  · rename_i hcut
    rw [htrim, cutAtLastSign_eq_none h.names] at hcut
    simp at hcut
  · rw [htrim, h.term, literal]

theorem ofInt_toNat (b : UInt8) : UInt8.ofInt b.toNat = b := by
  have hb := b.toNat_lt
  have hmod : ((b.toNat : Int) % 2 ^ 8).toNat = b.toNat := by omega
  rw [UInt8.ofInt, hmod, UInt8.ofNat_toNat]

theorem byteOfValue_toNat (b : UInt8) : byteOfValue b.toNat = .ok b := by
  have hb := b.toNat_lt
  rw [byteOfValue, if_pos (by omega), ofInt_toNat]

theorem zeroPageOfValue_toNat (b : UInt8) : zeroPageOfValue b.toNat = .ok b := by
  have hb := b.toNat_lt
  rw [zeroPageOfValue, if_pos (by omega), ofInt_toNat]

theorem wordOfValue_toNat (w : UInt16) : wordOfValue w.toNat = .ok w := by
  have hw := w.toNat_lt
  have hmod : ((w.toNat : Int) % 2 ^ 16).toNat = w.toNat := by omega
  rw [wordOfValue, if_pos (by omega), UInt16.ofInt, hmod, UInt16.ofNat_toNat]

variable {overflow : Overflow} {symbols : Symbols} {e : Expression} {value : Int}

theorem operandBytes_immediate {b : UInt8} (he : e.eval overflow symbols = .ok value)
    (hv : byteOfValue value = .ok b) : operandBytes overflow symbols e .immediate = .ok [b] := by
  rw [operandBytes, he]
  simp only [Except.bind, hv, Except.map]

theorem operandBytes_zeroPage {b : UInt8} (he : e.eval overflow symbols = .ok value)
    (hv : zeroPageOfValue value = .ok b) : operandBytes overflow symbols e .zeroPage = .ok [b] := by
  rw [operandBytes, he]
  simp only [Except.bind, hv, Except.map]

theorem operandBytes_absolute {w : UInt16} (he : e.eval overflow symbols = .ok value)
    (hv : wordOfValue value = .ok w) :
    operandBytes overflow symbols e .absolute = .ok [lowByte w, highByte w] := by
  rw [operandBytes, he]
  simp only [Except.bind, hv, Except.map, wordBytes]

end Accumulator.Assembly
