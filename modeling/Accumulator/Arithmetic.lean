/-!
# Arithmetic with carry

Addition and subtraction of bytes take a carry in and give a carry out. The carry out is what the
exact result exceeds a byte by, so that sums and differences of any length can be chained.
-/

namespace Accumulator.Arithmetic

/-- The carry as a number. -/
def carryIn (carry : Bool) : UInt8 := if carry then 1 else 0

/-- The sum of two bytes and a carry, with the carry out. -/
def add (a b : UInt8) (carry : Bool) : UInt8 × Bool :=
  (a + b + carryIn carry, 255 < a.toNat + b.toNat + (carryIn carry).toNat)

/-- The difference of two bytes and a borrow, with the borrow out. -/
def sub (a b : UInt8) (borrow : Bool) : UInt8 × Bool :=
  (a - b - carryIn borrow, a.toNat < b.toNat + (carryIn borrow).toNat)

@[simp] theorem toNat_carryIn (carry : Bool) : (carryIn carry).toNat = carry.toNat := by
  cases carry <;> rfl

/-- Sum and carry out together are the exact sum. -/
theorem add_exact (a b : UInt8) (carry : Bool) :
    (add a b carry).1.toNat + 256 * (add a b carry).2.toNat =
      a.toNat + b.toNat + carry.toNat := by
  have ha := a.toNat_lt
  have hb := b.toNat_lt
  have hc := carry.toNat_le
  by_cases h : 255 < a.toNat + b.toNat + (carryIn carry).toNat
  · simp only [add, h, decide_true, Bool.toNat_true, UInt8.toNat_add]
    rw [toNat_carryIn] at h ⊢
    omega
  · simp only [add, h, decide_false, Bool.toNat_false, UInt8.toNat_add]
    rw [toNat_carryIn] at h ⊢
    omega

/-- Difference and borrow out together are the exact difference. -/
theorem sub_exact (a b : UInt8) (borrow : Bool) :
    (sub a b borrow).1.toNat + b.toNat + borrow.toNat =
      a.toNat + 256 * (sub a b borrow).2.toNat := by
  have ha := a.toNat_lt
  have hb := b.toNat_lt
  have hc := borrow.toNat_le
  by_cases h : a.toNat < b.toNat + (carryIn borrow).toNat
  · simp only [sub, h, decide_true, Bool.toNat_true, UInt8.toNat_sub]
    rw [toNat_carryIn] at h ⊢
    omega
  · simp only [sub, h, decide_false, Bool.toNat_false, UInt8.toNat_sub]
    rw [toNat_carryIn] at h ⊢
    omega

end Accumulator.Arithmetic
