import Accumulator.Image.HexText
import Accumulator.Proofs.Results
import Accumulator.Proofs.Text.Cutting

/-!
# The format of images

The words of an image are pairs of hexadecimal digits. The reader takes these for the bytes they
denote, but it also takes a plus sign with one digit for a byte. So it keeps to the format on the
texts where such a word is not the first to break it, or where the same line holds a word that is
refused.
-/

namespace Accumulator.Image

/-! ## Digits -/

/-- The hexadecimal digits in order, the letters in upper case. -/
def upperDigits : Text :=
  ['0', '1', '2', '3', '4', '5', '6', '7', '8', '9', 'A', 'B', 'C', 'D', 'E', 'F']

/-- The hexadecimal digits in order, the letters in lower case. -/
def lowerDigits : Text :=
  ['0', '1', '2', '3', '4', '5', '6', '7', '8', '9', 'a', 'b', 'c', 'd', 'e', 'f']

/-- The value of a hexadecimal digit is its place among the digits. -/
def hexValue? (c : Char) : Option Nat := (upperDigits.idxOf? c).or (lowerDigits.idxOf? c)

theorem toNat_lt_of_isAlphanum {c : Char} (h : c.isAlphanum = true) : c.toNat < 128 := by
  have hbounds := Text.toNat_bounds_of_isNameChar (Text.isNameChar_of_isAlphanum h)
  omega

theorem hexValue?_of_le {c : Char} (h : 128 ≤ c.toNat) : hexValue? c = none := by
  have hupper : ∀ d ∈ upperDigits, d.isAlphanum = true := List.all_eq_true.mp rfl
  have hlower : ∀ d ∈ lowerDigits, d.isAlphanum = true := List.all_eq_true.mp rfl
  have hother : ¬ c.isAlphanum = true := by
    intro hc
    exact absurd (toNat_lt_of_isAlphanum hc) (Nat.not_lt.mpr h)
  have hnone : upperDigits.idxOf? c = none ∧ lowerDigits.idxOf? c = none := by
    simp only [List.idxOf?_eq_none_iff]
    exact ⟨fun hc => hother (hupper c hc), fun hc => hother (hlower c hc)⟩
  rw [hexValue?, hnone.1, hnone.2]
  rfl

theorem lt_of_hexValue? {c : Char} {d : Nat} (h : hexValue? c = some d) : c.toNat < 128 := by
  by_contra hlarge
  rw [hexValue?_of_le (Nat.le_of_not_lt hlarge)] at h
  cases h

/-- The reader knows the same digits. -/
theorem digitValue?_eq (c : Char) : Numeral.digitValue? 16 c = hexValue? c := by
  by_cases hc : c.toNat < 128
  · have hall : ∀ n < 128,
        Numeral.digitValue? 16 (Char.ofNat n) = hexValue? (Char.ofNat n) := by
      decide +kernel
    have hread := hall c.toNat hc
    rwa [Char.ofNat_toNat] at hread
  · have hle : ∀ d : Char, d.toNat < 128 → ¬ c ≤ d := by
      intro d hd hcd
      have hnat : c.toNat ≤ d.toNat := hcd
      omega
    rw [hexValue?_of_le (Nat.le_of_not_lt hc), Numeral.digitValue?]
    simp [hle '9' (by decide), hle 'F' (by decide), hle 'f' (by decide)]

theorem hexValue?_lt {c : Char} {d : Nat} (h : hexValue? c = some d) : d < 16 := by
  rw [← digitValue?_eq, Numeral.digitValue?] at h
  simpa using (Option.filter_eq_some_iff.mp h).2

theorem utf8Size_of_hexValue? {c : Char} {d : Nat} (h : hexValue? c = some d) :
    c.utf8Size = 1 := by
  have hc := lt_of_hexValue? h
  exact Char.utf8Size_eq_one_iff.mpr (UInt32.le_iff_toNat_le.mpr (Nat.le_of_lt_succ hc))

/-! ## Words -/

/-- The byte that two hexadecimal digits denote. -/
def pair? : Text → Option UInt8
  | [high, low] =>
      match hexValue? high, hexValue? low with
      | some h, some l => some (UInt8.ofNat (16 * h + l))
      | _, _ => none
  | _ => none

/-- The byte that a plus sign and one hexadecimal digit denote. -/
def signed? : Text → Option UInt8
  | [sign, low] => if sign = '+' then (hexValue? low).map UInt8.ofNat else none
  | _ => none

/-- The byte that a word of either form denotes. -/
def accepted? (word : Text) : Option UInt8 := (pair? word).or (signed? word)

theorem byteCount_of_pair? {word : Text} {b : UInt8} (h : pair? word = some b) :
    word.byteCount = 2 := by
  match word with
  | [high, low] =>
      rw [pair?] at h
      cases hhigh : hexValue? high with
      | none => simp [hhigh] at h
      | some x =>
          cases hlow : hexValue? low with
          | none => simp [hhigh, hlow] at h
          | some y =>
              simp [Text.byteCount, utf8Size_of_hexValue? hhigh, utf8Size_of_hexValue? hlow]

theorem byteCount_of_signed? {word : Text} {b : UInt8} (h : signed? word = some b) :
    word.byteCount = 2 := by
  match word with
  | [sign, low] =>
      rw [signed?] at h
      split at h
      · rename_i hsign
        obtain ⟨y, hlow, _⟩ := Option.map_eq_some_iff.mp h
        have hplus : sign.utf8Size = 1 := by rw [hsign]; decide
        simp [Text.byteCount, hplus, utf8Size_of_hexValue? hlow]
      · cases h

theorem byteCount_of_accepted? {word : Text} {b : UInt8} (h : accepted? word = some b) :
    word.byteCount = 2 := by
  rw [accepted?, Option.or_eq_some_iff] at h
  rcases h with h | ⟨_, h⟩
  · exact byteCount_of_pair? h
  · exact byteCount_of_signed? h

/-- A word of two bytes in UTF-8 is one character of two bytes or two of one byte. -/
theorem cases_of_byteCount {word : Text} (h : word.byteCount = 2) :
    (∃ c, word = [c] ∧ 128 ≤ c.toNat) ∨ ∃ c d, word = [c, d] := by
  match word with
  | [c] =>
      refine .inl ⟨c, rfl, ?_⟩
      by_contra hc
      have hone : c.utf8Size = 1 := by
        rw [Char.utf8Size_eq_one_iff, UInt32.le_iff_toNat_le]
        exact Nat.le_of_lt_succ (Nat.lt_of_not_le hc)
      simp [Text.byteCount, hone] at h
  | [c, d] => exact .inr ⟨c, d, rfl⟩
  | c :: d :: e :: rest =>
      have hc := c.utf8Size_pos
      have hd := d.utf8Size_pos
      have he := e.utf8Size_pos
      simp only [Text.byteCount, List.foldr_cons] at h
      omega

theorem read?_one (c : Char) : Numeral.read? 16 [c] = hexValue? c := by
  simp only [Numeral.read?, Numeral.readOnto?, digitValue?_eq, List.isEmpty_cons,
    Bool.false_eq_true, if_false]
  cases hexValue? c with
  | none => rfl
  | some d => simp

theorem read?_two (c d : Char) :
    Numeral.read? 16 [c, d] =
      (hexValue? c).bind fun high => (hexValue? d).map fun low => 16 * high + low := by
  simp only [Numeral.read?, Numeral.readOnto?, digitValue?_eq, List.isEmpty_cons,
    Bool.false_eq_true, if_false]
  cases hexValue? c with
  | none => rfl
  | some high =>
      cases hexValue? d with
      | none => rfl
      | some low => simp [Nat.mul_comm]

theorem readBelow?_two (c d : Char) :
    (Numeral.readBelow? 16 256 [c, d]).map UInt8.ofNat = accepted? [c, d] := by
  by_cases hc : c = '+'
  · subst hc
    have hplus : hexValue? '+' = none := by decide
    simp only [Numeral.readBelow?, read?_one, accepted?, pair?, signed?, hplus, Option.none_or,
      if_true]
    cases hd : hexValue? d with
    | none => rfl
    | some low =>
        have hlow := hexValue?_lt hd
        rw [Option.filter_some, if_pos (by simp; omega)]
  · have hread : Numeral.readBelow? 16 256 [c, d] =
        (Numeral.read? 16 [c, d]).filter (· < 256) := by
      rw [Numeral.readBelow?]
      intro rest heq
      exact hc (List.cons.inj heq).1
    rw [hread, read?_two, accepted?, pair?, signed?, if_neg hc, Option.or_none]
    cases hhigh : hexValue? c with
    | none => rfl
    | some high =>
        cases hlow : hexValue? d with
        | none => rfl
        | some low =>
            have hh := hexValue?_lt hhigh
            have hl := hexValue?_lt hlow
            simp only [Option.bind_some, Option.map_some]
            rw [Option.filter_some, if_pos (by simp; omega)]
            rfl

/-- The reader takes a word of either form, and no other, for the byte it denotes. -/
theorem toOption_readWord (word : Text) : (readWord word).toOption = accepted? word := by
  by_cases hcount : word.byteCount = 2
  · rw [readWord, if_neg (not_not_intro hcount)]
    have hread : (Numeral.readBelow? 16 256 word).map UInt8.ofNat = accepted? word := by
      obtain ⟨c, rfl, hc⟩ | ⟨c, d, rfl⟩ := cases_of_byteCount hcount
      · have hother : Numeral.readBelow? 16 256 [c] =
            (Numeral.read? 16 [c]).filter (· < 256) := by
          rw [Numeral.readBelow?]
          intro rest heq
          rw [(List.cons.inj heq).1] at hc
          exact absurd hc (by decide)
        rw [hother, read?_one, hexValue?_of_le hc]
        rfl
      · exact readBelow?_two c d
    rw [← hread]
    cases Numeral.readBelow? 16 256 word with
    | none => rfl
    | some n => rfl
  · rw [readWord, if_pos hcount]
    cases haccepted : accepted? word with
    | none => rfl
    | some b => exact absurd (byteCount_of_accepted? haccepted) hcount

/-! ## Texts -/

/-- The words of numbered lines, each with the number of its line. -/
def numberedWords (lines : List (Text × Nat)) : List (Text × Nat) :=
  lines.flatMap fun line => (lineWords line.1).map (·, line.2)

/-- The words of a text in front of its comments, each with the number of its line. -/
def textWords (text : Text) : List (Text × Nat) := numberedWords (text.lines.zipIdx 1)

/-- Read a word with the number of its line. -/
def readNumbered (word : Text × Nat) : Except TextError UInt8 :=
  (readWord word.1).mapError (⟨word.2, ·⟩)

theorem readLine_eq (line : Text × Nat) :
    readLine line = ((lineWords line.1).map (·, line.2)).mapM readNumbered := by
  have hword : ∀ word : Text,
      readNumbered (word, line.2) = (readWord word).mapError (⟨line.2, ·⟩) := fun _ => rfl
  exact (mapM_mapError hword _).symm

/-- A text is read word by word. -/
theorem readText_eq (text : Text) : readText text = (textWords text).mapM readNumbered := by
  rw [textWords, numberedWords, mapM_flatMap, readText]
  simp only [← readLine_eq]

theorem toOption_readNumbered (word : Text × Nat) :
    (readNumbered word).toOption = accepted? word.1 := by
  rw [← toOption_readWord, readNumbered]
  cases readWord word.1 with
  | error problem => rfl
  | ok b => rfl

/-- The numbers of the words do not decrease. -/
theorem pairwise_textWords (text : Text) :
    (textWords text).Pairwise fun first second => first.2 ≤ second.2 := by
  have hnumber : ∀ line : Text × Nat, ∀ word ∈ (lineWords line.1).map (·, line.2),
      word.2 = line.2 := by
    intro line word hword
    obtain ⟨characters, _, rfl⟩ := List.mem_map.mp hword
    rfl
  have hlines : (text.lines.zipIdx 1).Pairwise fun first second => first.2 ≤ second.2 := by
    rw [← List.pairwise_map (f := Prod.snd) (R := (· ≤ ·)), List.zipIdx_map_snd]
    exact List.pairwise_le_range'
  rw [textWords, numberedWords, List.pairwise_flatMap]
  constructor
  · intro line _
    rw [List.pairwise_map]
    exact List.pairwise_of_forall fun _ _ => Nat.le_refl _
  · apply hlines.imp
    intro first second hle word hword other hother
    rwa [hnumber first word hword, hnumber second other hother]

theorem le_of_find? {test : Text × Nat → Bool} {text : Text} {first other : Text × Nat}
    (hfirst : (textWords text).find? test = some first) (hother : other ∈ textWords text)
    (htest : test other = true) : first.2 ≤ other.2 := by
  have hsorted := pairwise_textWords text
  obtain ⟨_, before, after, heq, hbefore⟩ := List.find?_eq_some_iff_append.mp hfirst
  rw [heq] at hother hsorted
  rcases List.mem_append.mp hother with hmem | hmem
  · exact absurd (hbefore other hmem) (by rw [htest]; decide)
  · rcases List.mem_cons.mp hmem with rfl | hmem
    · exact Nat.le_refl _
    · exact (List.pairwise_cons.mp (List.pairwise_append.mp hsorted).2.1).1 other hmem

/-- A word is not a pair of digits. -/
def breaksFormat (word : Text × Nat) : Bool := (pair? word.1).isNone

/-- A word is neither a pair of digits nor a plus sign with a digit. -/
def isRefused (word : Text × Nat) : Bool := (accepted? word.1).isNone

/-- What the format says about the result of reading words: bytes are those that the words denote as
pairs of digits, and an error is on the line of the first word that is no pair of digits. -/
def Expects (words : List (Text × Nat)) : Except TextError (List UInt8) → Prop
  | .ok bytes => words.map (pair? ·.1) = bytes.map some
  | .error e => (words.find? breaksFormat).map Prod.snd = some e.line

instance (words : List (Text × Nat)) :
    (result : Except TextError (List UInt8)) → Decidable (Expects words result)
  | .ok _ => inferInstanceAs (Decidable (_ = _))
  | .error _ => inferInstanceAs (Decidable (_ = _))

/-- A text is read as the format says. -/
def KeepsFormat (text : Text) : Prop := Expects (textWords text) (readText text)

instance (text : Text) : Decidable (KeepsFormat text) :=
  inferInstanceAs (Decidable (Expects _ _))

theorem readNumbered_ok_iff {word : Text × Nat} {b : UInt8} :
    readNumbered word = .ok b ↔ accepted? word.1 = some b := by
  rw [← toOption_readNumbered]
  constructor
  · intro h
    rw [h]
    rfl
  · exact ok_of_toOption

theorem readNumbered_error_iff {word : Text × Nat} {e : TextError} :
    readNumbered word = .error e ↔ word.2 = e.line ∧ readWord word.1 = .error e.problem := by
  obtain ⟨line, problem⟩ := e
  rw [readNumbered]
  cases readWord word.1 with
  | error problem => simp [Except.mapError]
  | ok b => simp [Except.mapError]

theorem forall₂_iff_map_eq {α β γ : Type} {f : α → γ} {g : β → γ} {xs : List α} {ys : List β} :
    List.Forall₂ (fun a b => f a = g b) xs ys ↔ xs.map f = ys.map g := by
  rw [← List.forall₂_eq_eq_eq, List.forall₂_map_left_iff, List.forall₂_map_right_iff]

theorem readText_ok_iff {text : Text} {bytes : List UInt8} :
    readText text = .ok bytes ↔ (textWords text).map (accepted? ·.1) = bytes.map some := by
  rw [readText_eq, ← forall₂_iff_map_eq]
  simp only [← readNumbered_ok_iff]
  exact ⟨forall₂_of_mapM, mapM_of_forall₂⟩

theorem readText_error_iff {text : Text} {e : TextError} :
    readText text = .error e ↔
      ∃ word, (textWords text).find? isRefused = some (word, e.line) ∧
        readWord word = .error e.problem := by
  have htest : (fun word => (readNumbered word).toOption.isNone) = isRefused := by
    funext word
    rw [toOption_readNumbered]
    rfl
  rw [readText_eq, mapM_eq_error_iff, htest]
  constructor
  · rintro ⟨⟨word, line⟩, hfind, hread⟩
    obtain ⟨rfl, hproblem⟩ := readNumbered_error_iff.mp hread
    exact ⟨word, hfind, hproblem⟩
  · rintro ⟨word, hfind, hproblem⟩
    exact ⟨(word, e.line), hfind, readNumbered_error_iff.mpr ⟨rfl, hproblem⟩⟩

/-! ## Words that break the format -/

theorem breaksFormat_of_isRefused {word : Text × Nat} (h : isRefused word = true) :
    breaksFormat word = true := by
  rw [isRefused, accepted?] at h
  rw [breaksFormat]
  cases hpair : pair? word.1 with
  | none => rfl
  | some b => simp [hpair] at h

theorem isRefused_of_readText {text : Text} {bytes : List UInt8} (h : readText text = .ok bytes)
    {word : Text × Nat} (hword : word ∈ textWords text) : isRefused word = false := by
  have hmem : accepted? word.1 ∈ (textWords text).map (accepted? ·.1) := List.mem_map_of_mem hword
  rw [readText_ok_iff.mp h] at hmem
  obtain ⟨b, _, hb⟩ := List.mem_map.mp hmem
  rw [isRefused, ← hb]
  rfl

theorem exists_refused_of_keepsFormat {text word : Text} {line : Nat} (h : KeepsFormat text)
    (hfirst : (textWords text).find? breaksFormat = some (word, line)) :
    ∃ other, (other, line) ∈ textWords text ∧ isRefused (other, line) = true := by
  rw [KeepsFormat] at h
  cases hread : readText text with
  | ok bytes =>
      rw [hread, Expects] at h
      have hmem : pair? word ∈ (textWords text).map (pair? ·.1) :=
        List.mem_map.mpr ⟨_, List.mem_of_find?_eq_some hfirst, rfl⟩
      rw [h] at hmem
      obtain ⟨b, _, hb⟩ := List.mem_map.mp hmem
      have hbreaks := List.find?_some hfirst
      rw [breaksFormat, ← hb] at hbreaks
      cases hbreaks
  | error e =>
      rw [hread, Expects, hfirst, Option.map_some, Option.some.injEq] at h
      obtain ⟨other, hother, _⟩ := readText_error_iff.mp hread
      rw [← h] at hother
      exact ⟨other, List.mem_of_find?_eq_some hother, List.find?_some hother⟩

theorem keepsFormat_of_exists_refused {text : Text}
    (h : ∀ word line, (textWords text).find? breaksFormat = some (word, line) →
      ∃ other, (other, line) ∈ textWords text ∧ isRefused (other, line) = true) :
    KeepsFormat text := by
  rw [KeepsFormat]
  cases hfirst : (textWords text).find? breaksFormat with
  | none =>
      have hpairs : ∀ word ∈ textWords text, breaksFormat word = false := by
        simpa using List.find?_eq_none.mp hfirst
      cases hread : readText text with
      | ok bytes =>
          rw [Expects, ← readText_ok_iff.mp hread]
          apply List.map_congr_left
          intro word hword
          obtain ⟨b, hb⟩ := Option.isSome_iff_exists.mp
            (Option.isNone_eq_false_iff.mp (hpairs word hword))
          rw [accepted?, hb, Option.some_or]
      | error e =>
          obtain ⟨other, hother, _⟩ := readText_error_iff.mp hread
          have hbreaks := breaksFormat_of_isRefused (List.find?_some hother)
          rw [hpairs _ (List.mem_of_find?_eq_some hother)] at hbreaks
          cases hbreaks
  | some first =>
      obtain ⟨word, line⟩ := first
      obtain ⟨other, hother, hrefused⟩ := h word line hfirst
      cases hread : readText text with
      | ok bytes =>
          rw [isRefused_of_readText hread hother] at hrefused
          cases hrefused
      | error e =>
          obtain ⟨reported, hreported, _⟩ := readText_error_iff.mp hread
          rw [Expects, hfirst, Option.map_some, Option.some.injEq]
          -- the reported word comes no earlier than the first break and no later than its line
          have hle : (word, line).2 ≤ (reported, e.line).2 :=
            le_of_find? hfirst (List.mem_of_find?_eq_some hreported)
              (breaksFormat_of_isRefused (List.find?_some hreported))
          have hge : (reported, e.line).2 ≤ (other, line).2 :=
            le_of_find? hreported hother hrefused
          exact Nat.le_antisymm hle hge

/-- The reader takes pairs of digits and plus signs with a digit for bytes, and reports the first
word that is neither. So it keeps to the format exactly if the line of the first word that is no
pair of digits holds a word that is refused, which may be this word itself. -/
theorem keepsFormat_iff (text : Text) :
    (∀ bytes, readText text = .ok bytes ↔
      (textWords text).map (accepted? ·.1) = bytes.map some) ∧
    (∀ e, readText text = .error e ↔
      ∃ word, (textWords text).find? isRefused = some (word, e.line) ∧
        readWord word = .error e.problem) ∧
    (KeepsFormat text ↔
      ∀ word line, (textWords text).find? breaksFormat = some (word, line) →
        ∃ other, (other, line) ∈ textWords text ∧ isRefused (other, line) = true) := by
  refine ⟨fun bytes => readText_ok_iff, fun e => readText_error_iff, ?_,
    keepsFormat_of_exists_refused⟩
  intro hkeeps word line hfirst
  exact exists_refused_of_keepsFormat hkeeps hfirst

/-- A plus sign with a digit is read as a byte, although it is no pair of digits. -/
theorem readText_plus_five :
    readText ['+', '5'] = .ok [5] ∧ pair? ['+', '5'] = none ∧ ¬ KeepsFormat ['+', '5'] := by
  decide

end Accumulator.Image
