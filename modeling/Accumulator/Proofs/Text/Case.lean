import Accumulator.Text.Numeral
import Accumulator.Proofs.Text.Cutting

/-!
# Letters of either case

Blanks, separators and digits are told apart without a look at the case of letters. Trimming and
cutting therefore commute with upper-casing, and a numeral keeps its value.
-/

namespace Accumulator

namespace Text

/-- A test of characters that gives both cases of a letter the same result. -/
def CaseBlind {α : Type} (test : Char → α) : Prop := ∀ c, test c.toUpper = test c

/-- A character is its own upper case, or one of the lower-case letters of ASCII. -/
theorem toUpper_cases (c : Char) :
    c.toUpper = c ∨
      ∃ n < 26, c = Char.ofNat (97 + n) ∧ c.toUpper = Char.ofNat (65 + n) := by
  by_cases h : c.val ≥ 'a'.val ∧ c.val ≤ 'z'.val
  · simp only [ge_iff_le, UInt32.le_iff_toNat_le] at h
    have hlow : 97 ≤ c.toNat := h.1
    have hhigh : c.toNat ≤ 122 := h.2
    have hletter : Char.ofNat (97 + (c.toNat - 97)) = c := by
      rw [Nat.add_sub_cancel' hlow, Char.ofNat_toNat]
    have hall : ∀ n < 26, (Char.ofNat (97 + n)).toUpper = Char.ofNat (65 + n) := by decide
    have hupper := hall (c.toNat - 97) (by omega)
    rw [hletter] at hupper
    exact .inr ⟨c.toNat - 97, by omega, hletter.symm, hupper⟩
  · exact .inl (dif_neg h)

/-- Whether a test tells cases apart shows at the letters of ASCII. -/
theorem caseBlind_of_forall {α : Type} {test : Char → α}
    (h : ∀ n < 26, test (Char.ofNat (65 + n)) = test (Char.ofNat (97 + n))) :
    CaseBlind test := by
  intro c
  obtain hc | ⟨n, hn, hc, hupper⟩ := toUpper_cases c
  · rw [hc]
  · rw [hupper, h n hn, hc]

theorem toUpper_toUpper (c : Char) : c.toUpper.toUpper = c.toUpper := by
  have hblind : CaseBlind Char.toUpper := caseBlind_of_forall (by decide)
  exact hblind c

theorem caseBlind_isBlank : CaseBlind isBlank := caseBlind_of_forall (by decide)

theorem CaseBlind.comp_toUpper {α : Type} {test : Char → α} (h : CaseBlind test) :
    test ∘ Char.toUpper = test := funext h

theorem CaseBlind.not {test : Char → Bool} (h : CaseBlind test) : CaseBlind fun c => !test c :=
  fun c => congrArg (!·) (h c)

theorem toUpper_eq_iff {c d : Char} (h : CaseBlind (· == d)) : c.toUpper = d ↔ c = d := by
  have hc : (c.toUpper == d) = (c == d) := h c
  rw [← beq_iff_eq, hc, beq_iff_eq]

/-! ## Upper-casing and cutting -/

section Cutting

variable {test : Char → Bool} (text : Text)

@[simp] theorem upper_cons (c : Char) : upper (c :: text) = c.toUpper :: upper text := rfl

@[simp] theorem isEmpty_upper : (upper text).isEmpty = text.isEmpty := List.isEmpty_map

@[simp] theorem upper_upper : upper (upper text) = upper text := by
  rw [upper, upper, List.map_map]
  exact List.map_congr_left fun c _ => toUpper_toUpper c

theorem mem_upper {d : Char} (h : CaseBlind (· == d)) : d ∈ upper text ↔ d ∈ text := by
  rw [upper, List.mem_map]
  simp only [toUpper_eq_iff h, exists_eq_right]

theorem all_upper (h : CaseBlind test) : (upper text).all test = text.all test := by
  rw [upper, List.all_map, h.comp_toUpper]

theorem dropWhile_upper (h : CaseBlind test) :
    (upper text).dropWhile test = upper (text.dropWhile test) := by
  rw [upper, List.dropWhile_map, h.comp_toUpper]
  rfl

theorem takeWhile_upper (h : CaseBlind test) :
    (upper text).takeWhile test = upper (text.takeWhile test) := by
  rw [upper, List.takeWhile_map, h.comp_toUpper]
  rfl

theorem trimRight_upper : trimRight (upper text) = upper (trimRight text) := by
  induction text with
  | nil => rfl
  | cons c rest ih =>
      rw [upper_cons, trimRight_cons, trimRight_cons, ih, isEmpty_upper, caseBlind_isBlank c]
      split
      · rfl
      · rfl

theorem trim_upper : trim (upper text) = upper (trim text) := by
  rw [trim, dropWhile_upper text caseBlind_isBlank, trimRight_upper]
  rfl

theorem cutAtFirst_upper (h : CaseBlind test) :
    (upper text).cutAtFirst test =
      (text.cutAtFirst test).map fun parts => (upper parts.1, upper parts.2) := by
  rw [cutAtFirst, dropWhile_upper text h.not, takeWhile_upper text h.not, cutAtFirst]
  cases text.dropWhile fun c => !test c with
  | nil => rfl
  | cons c after => rfl

theorem pieces_upper (h : CaseBlind test) :
    (upper text).pieces test = (text.pieces test).map upper := by
  induction text with
  | nil => rfl
  | cons c rest ih =>
      rw [upper_cons, pieces_cons, pieces_cons, ih, h c]
      split
      · rfl
      · cases pieces test rest with
        | nil => rfl
        | cons first others => rfl

end Cutting

end Text

/-! ## Numerals -/

namespace Numeral

open Text

theorem caseBlind_digitValue? (base : Nat) : CaseBlind (digitValue? base) := by
  have hvalue : CaseBlind fun c : Char =>
      if '0' ≤ c ∧ c ≤ '9' then some (c.toNat - 48)
      else if 'A' ≤ c ∧ c ≤ 'F' then some (c.toNat - 55)
      else if 'a' ≤ c ∧ c ≤ 'f' then some (c.toNat - 87)
      else none := caseBlind_of_forall (by decide)
  intro c
  exact congrArg (Option.filter (· < base)) (hvalue c)

theorem readOnto?_upper (base value : Nat) (text : Text) :
    readOnto? base value text.upper = readOnto? base value text := by
  induction text generalizing value with
  | nil => rfl
  | cons c rest ih =>
      rw [upper_cons, readOnto?, readOnto?, caseBlind_digitValue? base c]
      cases digitValue? base c with
      | none => rfl
      | some d => exact ih (value * base + d)

/-- Digits beyond nine may be of either case. -/
theorem read?_upper (base : Nat) (text : Text) : read? base text.upper = read? base text := by
  rw [read?, read?, isEmpty_upper, readOnto?_upper]

end Numeral
end Accumulator
