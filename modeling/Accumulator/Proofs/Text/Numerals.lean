import Accumulator.Text.HexBytes
import Mathlib.Algebra.Group.Nat.Defs
import Mathlib.Data.Nat.Digits.Defs

/-!
# Numerals read back

A number written in a base of at most sixteen is read back from its digits. The reader goes on from
a value already read, so the law is stated for every such value; zeros in front do not change it.
-/

namespace Accumulator.Numeral

theorem digitValue?_upperDigit {base d : Nat} (hd : d < base) (hb : base ≤ 16) :
    digitValue? base (upperDigit d) = some d := by
  have hall : ∀ base < 17, ∀ d < base, digitValue? base (upperDigit d) = some d := by decide
  exact hall base (by omega) d hd

theorem isAlphanum_upperDigit {d : Nat} (hd : d < 16) : (upperDigit d).isAlphanum = true := by
  have hall : ∀ d < 16, (upperDigit d).isAlphanum = true := by decide
  exact hall d hd

theorem isDigit_upperDigit {d : Nat} (hd : d < 10) : (upperDigit d).isDigit = true := by
  have hall : ∀ d < 10, (upperDigit d).isDigit = true := by decide
  exact hall d hd

theorem utf8Size_upperDigit {d : Nat} (hd : d < 16) : (upperDigit d).utf8Size = 1 := by
  have hall : ∀ d < 16, (upperDigit d).utf8Size = 1 := by decide
  exact hall d hd

theorem digits_of_lt {base n : Nat} (h : n < base) : digits base n = [n] := by
  rw [digits, dif_pos (Or.inl h)]

theorem digits_of_le {base n : Nat} (hb : 2 ≤ base) (h : base ≤ n) :
    digits base n = digits base (n / base) ++ [n % base] := by
  rw [digits, dif_neg (by omega)]

theorem digits_ne_nil (base n : Nat) : digits base n ≠ [] := by
  rw [digits]
  split <;> simp

theorem decimal_ne_nil (n : Nat) : decimal n ≠ [] := by
  simp [decimal, digits_ne_nil]

theorem lt_of_mem_digits {base n d : Nat} (hb : 2 ≤ base) (hd : d ∈ digits base n) : d < base := by
  induction n using Nat.strongRecOn with
  | ind n ih =>
      by_cases h : n < base
      · rw [digits_of_lt h, List.mem_singleton] at hd
        exact hd ▸ h
      · rw [digits_of_le hb (by omega), List.mem_append, List.mem_singleton] at hd
        rcases hd with hd | rfl
        · exact ih (n / base) (Nat.div_lt_self (by omega) hb) hd
        · exact Nat.mod_lt n (by omega)

theorem readOnto?_append (base value : Nat) (first second : Text) :
    readOnto? base value (first ++ second) =
      (readOnto? base value first).bind fun read => readOnto? base read second := by
  induction first generalizing value with
  | nil => rfl
  | cons c rest ih =>
      simp only [List.cons_append, readOnto?]
      cases digitValue? base c with
      | none => rfl
      | some d => exact ih (value * base + d)

/-- The digits of a number are read on top of what has been read before. -/
theorem readOnto?_digits {base : Nat} (hb : 2 ≤ base) (hle : base ≤ 16) (value n : Nat) :
    readOnto? base value ((digits base n).map upperDigit) =
      some (value * base ^ (digits base n).length + n) := by
  induction n using Nat.strongRecOn generalizing value with
  | ind n ih =>
      by_cases h : n < base
      · rw [digits_of_lt h]
        simp [readOnto?, digitValue?_upperDigit h hle]
      · have hmod : n % base < base := Nat.mod_lt n (by omega)
        have hsum : base * (n / base) + n % base = n := Nat.div_add_mod n base
        rw [digits_of_le hb (by omega), List.map_append, readOnto?_append,
          ih (n / base) (Nat.div_lt_self (by omega) hb)]
        simp only [Option.bind_some, List.map_cons, List.map_nil, readOnto?,
          digitValue?_upperDigit hmod hle, List.length_append, List.length_singleton,
          Option.some.injEq]
        rw [Nat.add_mul, Nat.pow_succ, Nat.mul_assoc, Nat.mul_comm (n / base) base]
        omega

theorem readOnto?_zeros {base : Nat} (hb : 2 ≤ base) (hle : base ≤ 16) (count : Nat) (text : Text) :
    readOnto? base 0 (List.replicate count '0' ++ text) = readOnto? base 0 text := by
  have hzero : digitValue? base '0' = some 0 := digitValue?_upperDigit (d := 0) (by omega) hle
  induction count with
  | zero => rfl
  | succ count ih => simpa [List.replicate_succ, readOnto?, hzero] using ih

@[simp] theorem read?_decimal (n : Nat) : read? 10 (decimal n) = some n := by
  have hne : (decimal n).isEmpty = false := List.isEmpty_eq_false_iff.mpr (decimal_ne_nil n)
  rw [read?, hne, if_neg (by simp), decimal, readOnto?_digits (by omega) (by omega)]
  simp

@[simp] theorem read?_hex (width n : Nat) : read? 16 (hex width n) = some n := by
  have hne : (hex width n).isEmpty = false := by
    simp [hex, zeroPad, digits_ne_nil]
  rw [read?, hne, if_neg (by simp), hex, zeroPad, readOnto?_zeros (by omega) (by omega),
    readOnto?_digits (by omega) (by omega)]
  simp

theorem isDigit_of_mem_decimal {n : Nat} {c : Char} (hc : c ∈ decimal n) : c.isDigit = true := by
  obtain ⟨d, hd, rfl⟩ := List.mem_map.mp hc
  exact isDigit_upperDigit (lt_of_mem_digits (by omega) hd)

theorem isAlphanum_of_mem_hex {width n : Nat} {c : Char} (hc : c ∈ hex width n) :
    c.isAlphanum = true := by
  rw [hex, zeroPad, List.mem_append] at hc
  rcases hc with hc | hc
  · rw [List.eq_of_mem_replicate hc]
    decide
  · obtain ⟨d, hd, rfl⟩ := List.mem_map.mp hc
    exact isAlphanum_upperDigit (lt_of_mem_digits (by omega) hd)

/-! ## Digits by their places -/

variable {base : Nat} {c : Char}

/-- The number that digits denote by their places. -/
def placeValue (base : Nat) (digits : Text) : Nat :=
  Nat.ofDigits base (digits.filterMap (digitValue? base)).reverse

theorem length_filterMap_digits {digits : Text}
    (h : ∀ c ∈ digits, (digitValue? base c).isSome = true) :
    (digits.filterMap (digitValue? base)).length = digits.length := by
  induction digits with
  | nil => rfl
  | cons c rest ih =>
      rw [List.forall_mem_cons] at h
      obtain ⟨d, hd⟩ := Option.isSome_iff_exists.mp h.1
      rw [List.filterMap_cons_some hd, List.length_cons, List.length_cons, ih h.2]

theorem placeValue_cons {d : Nat} {rest : Text} (hd : digitValue? base c = some d)
    (hrest : ∀ c ∈ rest, (digitValue? base c).isSome = true) :
    placeValue base (c :: rest) = placeValue base rest + base ^ rest.length * d := by
  rw [placeValue, List.filterMap_cons_some hd, List.reverse_cons, Nat.ofDigits_append,
    Nat.ofDigits_singleton, List.length_reverse, length_filterMap_digits hrest, placeValue]

/-- Digits are read on top of what has been read before, each by its place. -/
theorem readOnto?_eq_placeValue {digits : Text}
    (h : ∀ c ∈ digits, (digitValue? base c).isSome = true) (value : Nat) :
    readOnto? base value digits = some (value * base ^ digits.length + placeValue base digits) := by
  induction digits generalizing value with
  | nil => simp [readOnto?, placeValue]
  | cons c rest ih =>
      rw [List.forall_mem_cons] at h
      obtain ⟨d, hd⟩ := Option.isSome_iff_exists.mp h.1
      rw [readOnto?, hd]
      dsimp only
      rw [ih h.2, placeValue_cons hd h.2, List.length_cons, Nat.pow_succ]
      congr 1
      ring

theorem read?_eq_placeValue {digits : Text} (hne : digits ≠ [])
    (h : ∀ c ∈ digits, (digitValue? base c).isSome = true) :
    read? base digits = some (placeValue base digits) := by
  rw [read?, if_neg (by simpa using hne), readOnto?_eq_placeValue h, Nat.zero_mul, Nat.zero_add]

theorem isSome_digit_of_readOnto? {digits : Text} {value n : Nat}
    (h : readOnto? base value digits = some n) :
    ∀ c ∈ digits, (digitValue? base c).isSome = true := by
  induction digits generalizing value with
  | nil => exact List.forall_mem_nil _
  | cons c rest ih =>
      rw [readOnto?] at h
      cases hc : digitValue? base c with
      | none => simp [hc] at h
      | some d =>
          rw [hc] at h
          exact List.forall_mem_cons.mpr ⟨by rw [hc]; rfl, ih h⟩

/-- Only digits are read. -/
theorem isSome_digit_of_read? {digits : Text} {n : Nat} (h : read? base digits = some n) :
    ∀ c ∈ digits, (digitValue? base c).isSome = true := by
  rw [read?] at h
  split at h
  · cases h
  · exact isSome_digit_of_readOnto? h

/-- What is a digit in some base is a decimal digit or one of the letters, which come after nine. -/
theorem cases_of_digitValue? {d : Nat} (h : digitValue? base c = some d) :
    c.isDigit = true ∨ c.isAlpha = true ∧ 10 ≤ d := by
  obtain ⟨hvalue, _⟩ := Option.filter_eq_some_iff.mp h
  split at hvalue
  · rename_i hrange
    left
    simp only [Char.isDigit, Bool.and_eq_true, decide_eq_true_eq]
    exact hrange
  · right
    split at hvalue
    · rename_i hrange
      have hupper : c.isUpper = true :=
        decide_eq_true ⟨hrange.1, UInt32.le_trans hrange.2 (by decide)⟩
      have hfirst : 'A'.toNat ≤ c.toNat := hrange.1
      obtain rfl := Option.some.inj hvalue
      exact ⟨Bool.or_eq_true_iff.mpr (.inl hupper), Nat.le_sub_of_add_le hfirst⟩
    · split at hvalue
      · rename_i hrange
        have hend : c.val ≤ 'z'.val := UInt32.le_trans hrange.2 (by decide)
        have hlower : c.isLower = true :=
          Bool.and_eq_true_iff.mpr ⟨decide_eq_true hrange.1, decide_eq_true hend⟩
        have hfirst : 'a'.toNat ≤ c.toNat := hrange.1
        obtain rfl := Option.some.inj hvalue
        exact ⟨Bool.or_eq_true_iff.mpr (.inr hlower), Nat.le_sub_of_add_le hfirst⟩
      · cases hvalue

theorem isAlphanum_of_digitValue? (h : (digitValue? base c).isSome = true) :
    c.isAlphanum = true := by
  obtain ⟨d, hd⟩ := Option.isSome_iff_exists.mp h
  rcases cases_of_digitValue? hd with hdigit | ⟨halpha, _⟩
  · simp [Char.isAlphanum, hdigit]
  · simp [Char.isAlphanum, halpha]

theorem isDigit_of_digitValue? (h : (digitValue? 10 c).isSome = true) : c.isDigit = true := by
  obtain ⟨d, hd⟩ := Option.isSome_iff_exists.mp h
  have hlt : d < 10 := by simpa using (Option.filter_eq_some_iff.mp hd).2
  exact (cases_of_digitValue? hd).resolve_right fun hletter => Nat.not_le_of_lt hlt hletter.2

end Accumulator.Numeral

namespace Accumulator.HexBytes

@[simp] theorem read?_byte (b : UInt8) : Numeral.read? 16 (byte b) = some b.toNat := by
  have hb := b.toNat_lt
  have hhigh : b.toNat / 16 < 16 := by omega
  have hlow : b.toNat % 16 < 16 := by omega
  simp only [Numeral.read?, byte, List.isEmpty_cons, Numeral.readOnto?,
    Numeral.digitValue?_upperDigit hhigh (Nat.le_refl 16),
    Numeral.digitValue?_upperDigit hlow (Nat.le_refl 16)]
  simp only [Bool.false_eq_true, if_false, Option.some.injEq]
  omega

theorem isAlphanum_of_mem_byte {b : UInt8} {c : Char} (hc : c ∈ byte b) : c.isAlphanum = true := by
  have hb := b.toNat_lt
  simp only [byte, List.mem_cons, List.not_mem_nil, or_false] at hc
  rcases hc with rfl | rfl
  · exact Numeral.isAlphanum_upperDigit (by omega)
  · exact Numeral.isAlphanum_upperDigit (by omega)

theorem byteCount_byte (b : UInt8) : (byte b).byteCount = 2 := by
  have hb := b.toNat_lt
  have hhigh : b.toNat / 16 < 16 := by omega
  have hlow : b.toNat % 16 < 16 := by omega
  simp only [byte, Text.byteCount, List.foldr_cons, List.foldr_nil,
    Numeral.utf8Size_upperDigit hhigh, Numeral.utf8Size_upperDigit hlow]

end Accumulator.HexBytes
