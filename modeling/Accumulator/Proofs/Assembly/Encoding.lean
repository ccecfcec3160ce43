import Accumulator.Proofs.Assembly.Emission
import Accumulator.Proofs.Instruction.Coding

/-!
# The bytes of instruction statements

The bytes of an instruction statement decode to an instruction of its opcode. The number in that
instruction is the value of the operand, or its two's complement where a byte holds a negative
value.
-/

namespace Accumulator.Assembly

/-- A number in an operand of a form stands for a value. -/
inductive Represents (value : Int) : OperandForm → Nat → Prop
  | same {form : OperandForm} {number : Nat} (eq : (number : Int) = value) :
      Represents value form number
  /-- A byte in two's complement. -/
  | negative {number : Nat} (eq : (number : Int) = value + 256) (ge : -128 ≤ value)
      (lt : value < 0) : Represents value .immediate number

variable {overflow : Overflow} {symbols : Symbols} {p : Placed} {bytes : List UInt8} {value : Int}

theorem represents_of_wordOfValue {w : UInt16} (h : wordOfValue value = .ok w) :
    Represents value .absolute w.toNat := by
  rw [wordOfValue] at h
  split at h
  · obtain rfl := Except.ok.inj h
    have hbound : (value % 65536).toNat < 65536 := by omega
    have hnumber : (UInt16.ofInt value).toNat = (value % 65536).toNat :=
      UInt16.toNat_ofNat_of_lt' hbound
    exact .same (by omega)
  · cases h

end Accumulator.Assembly
