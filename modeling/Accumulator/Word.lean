/-!
# Two-byte words

A word is stored low byte first. Splitting a word and joining the halves are inverse to each other.
-/

namespace Accumulator

/-- The word with the given low and high byte. -/
def joinBytes (low high : UInt8) : UInt16 := low.toUInt16 + 256 * high.toUInt16

/-- The low half of a word. -/
def lowByte (word : UInt16) : UInt8 := word.toUInt8

/-- The high half of a word. -/
def highByte (word : UInt16) : UInt8 := (word / 256).toUInt8

theorem joinBytes_toNat (low high : UInt8) :
    (joinBytes low high).toNat = low.toNat + 256 * high.toNat := by
  have hl := low.toNat_lt
  have hh := high.toNat_lt
  simp [joinBytes]
  omega

@[simp] theorem joinBytes_lowByte_highByte (word : UInt16) :
    joinBytes (lowByte word) (highByte word) = word := by
  have h := word.toNat_lt
  apply UInt16.toNat_inj.mp
  rw [joinBytes_toNat]
  simp [lowByte, highByte]
  omega

@[simp] theorem lowByte_joinBytes (low high : UInt8) : lowByte (joinBytes low high) = low := by
  have hl := low.toNat_lt
  apply UInt8.toNat_inj.mp
  simp only [lowByte, UInt16.toNat_toUInt8, joinBytes_toNat]
  omega

@[simp] theorem highByte_joinBytes (low high : UInt8) : highByte (joinBytes low high) = high := by
  have hl := low.toNat_lt
  have hh := high.toNat_lt
  apply UInt8.toNat_inj.mp
  simp only [highByte, UInt16.toNat_toUInt8, UInt16.toNat_div, joinBytes_toNat]
  simp
  omega

theorem toNat_add_of_lt {a b : UInt16} (h : a.toNat + b.toNat < 0x10000) :
    (a + b).toNat = a.toNat + b.toNat := by
  rw [UInt16.toNat_add]
  exact Nat.mod_eq_of_lt h

theorem toNat_sub_of_le {a b : UInt16} (h : b.toNat ≤ a.toNat) :
    (a - b).toNat = a.toNat - b.toNat :=
  UInt16.toNat_sub_of_le a b (UInt16.le_iff_toNat_le.mpr h)

theorem toNat_sub_two {word : UInt16} {start : Nat} (h : start + 2 ≤ word.toNat) :
    (word - 2).toNat = word.toNat - 2 :=
  toNat_sub_of_le (b := 2) (Nat.le_trans (Nat.le_add_left 2 start) h)

theorem toNat_ofInt_byte (value : Int) : (UInt8.ofInt value).toNat = (value % 256).toNat := by
  have hbound : (value % 256).toNat < 256 := by omega
  exact UInt8.toNat_ofNat_of_lt' hbound

end Accumulator
