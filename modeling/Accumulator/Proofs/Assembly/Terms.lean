import Accumulator.Proofs.Assembly.Literals

/-!
# Terms as they are written

A term is a number in one of three bases, a label, or a character between quotes; the first term of
an expression may also be a number with a minus in front. Each is read for its value.
-/

namespace Accumulator.Assembly

open Text

/-! ## Numbers -/

/-- The bases that numbers are written in. -/
inductive Radix
  | decimal
  | hexadecimal
  | binary
  deriving DecidableEq, Repr

/-- The base itself. -/
def Radix.base : Radix → Nat
  | decimal => 10
  | hexadecimal => 16
  | binary => 2

/-- What may stand in front of the digits to mark the base. -/
def Radix.marks : Radix → List Text
  | decimal => [[]]
  | hexadecimal => [['0', 'x'], ['0', 'X']]
  | binary => [['0', 'b'], ['0', 'B']]

/-- A number without a sign as it is written: one or more digits with the mark of their base. -/
structure NumberText where
  radix : Radix
  mark : Text
  digits : Text
  mark_mem : mark ∈ radix.marks
  digits_ne_nil : digits ≠ []
  all_digits : (digits.all fun c => (Numeral.digitValue? radix.base c).isSome) = true
  small : Numeral.placeValue radix.base digits < magnitudeBound

namespace NumberText

/-- The number as it is written. -/
def text (n : NumberText) : Text := n.mark ++ n.digits

/-- The number. -/
def value (n : NumberText) : Nat := Numeral.placeValue n.radix.base n.digits

theorem isSome_digit (n : NumberText) :
    ∀ c ∈ n.digits, (Numeral.digitValue? n.radix.base c).isSome = true :=
  List.all_eq_true.mp n.all_digits

theorem isNameChar_text (n : NumberText) : ∀ c ∈ n.text, isNameChar c = true := by
  simp only [text, List.forall_mem_append]
  constructor
  · have hall : ∀ radix : Radix, ∀ mark ∈ radix.marks, mark.all isNameChar = true := by
      intro radix
      cases radix <;> decide
    exact List.all_eq_true.mp (hall n.radix n.mark n.mark_mem)
  · intro c hc
    exact isNameChar_of_isAlphanum (Numeral.isAlphanum_of_digitValue? (n.isSome_digit c hc))

theorem magnitude?_text (n : NumberText) : magnitude? n.text = some n.value := by
  obtain ⟨radix, mark, digits, hmark, hne, hall, hsmall⟩ := n
  have hdigits : ∀ c ∈ digits, (Numeral.digitValue? radix.base c).isSome = true :=
    List.all_eq_true.mp hall
  have hread : (Numeral.read? radix.base digits).filter (· < magnitudeBound) =
      some (Numeral.placeValue radix.base digits) := by
    rw [Numeral.read?_eq_placeValue hne hdigits, Option.filter_some_pos (by simpa using hsmall)]
  cases radix with
  | decimal =>
      obtain rfl : mark = [] := List.mem_singleton.mp hmark
      have hplain : Plain digits := by
        intro hquote
        exact absurd (hdigits _ hquote) (by decide)
      have hunmarked : ∀ c rest, digits = '0' :: c :: rest → isBaseMark c = false := by
        rintro c rest rfl
        have hdigit := Numeral.isDigit_of_digitValue?
          (hdigits c (List.mem_cons_of_mem _ List.mem_cons_self))
        simp only [isBaseMark, Bool.or_eq_false_iff, beq_eq_false_iff_ne]
        refine ⟨⟨⟨?_, ?_⟩, ?_⟩, ?_⟩
        all_goals exact ne_of_test hdigit rfl
      rw [text, List.nil_append, magnitude?_eq_decimal hplain hunmarked]
      exact hread
  | hexadecimal | binary =>
      rcases List.mem_pair.mp hmark with rfl | rfl
      · exact hread
      · exact hread

theorem text_ne_nil (n : NumberText) : n.text ≠ [] :=
  List.append_ne_nil_of_right_ne_nil _ n.digits_ne_nil

theorem number?_text (n : NumberText) : number? n.text = some (n.value : Int) := by
  obtain ⟨c, rest, htext⟩ := List.exists_cons_of_ne_nil n.text_ne_nil
  have hname : isNameChar c = true := n.isNameChar_text c (htext ▸ List.mem_cons_self)
  rw [htext, number?_of_ne (ne_of_test hname rfl) (ne_of_test hname rfl), ← htext,
    n.magnitude?_text]
  rfl

theorem isNumeral (n : NumberText) : IsNumeral n.text n.value :=
  ⟨n.text_ne_nil, n.isNameChar_text, n.number?_text⟩

end NumberText

/-! ## Labels and characters -/

theorem isNameChar_of_isLabel {name : Text} (h : isLabel name = true) :
    ∀ c ∈ name, isNameChar c = true := by
  cases name with
  | nil => cases h
  | cons c rest =>
      rw [isLabel, Bool.and_eq_true] at h
      rw [List.forall_mem_cons]
      refine ⟨?_, List.all_eq_true.mp h.2⟩
      rcases Bool.or_eq_true_iff.mp h.1 with halpha | hunderscore
      · exact isNameChar_of_isAlphanum (by simp [Char.isAlphanum, halpha])
      · simp [isNameChar, hunderscore]

theorem isDigit_of_isLabel {c : Char} {rest : Text} (h : isLabel (c :: rest) = true) :
    c.isDigit = false := by
  have hall : ∀ n < 128, ((Char.ofNat n).isAlpha || Char.ofNat n == '_') = true →
      (Char.ofNat n).isDigit = false := by decide
  have hbounds := toNat_bounds_of_isNameChar (isNameChar_of_isLabel h c List.mem_cons_self)
  have hfirst := hall c.toNat (by omega)
  rw [Char.ofNat_toNat] at hfirst
  exact hfirst (Bool.and_eq_true_iff.mp h).1

/-- A label does not start with a digit, so it is not taken for a number. -/
theorem term_of_isLabel {name : Text} (h : isLabel name = true) :
    Term.ofText name = .label name := by
  have hnames := isNameChar_of_isLabel h
  cases name with
  | nil => cases h
  | cons c rest =>
      have hdigit := isDigit_of_isLabel h
      have hname : isNameChar c = true := hnames c List.mem_cons_self
      have hminus : c ≠ '-' := ne_of_test hname rfl
      have hquote : c ≠ '\'' := ne_of_test hname rfl
      have hplain : Plain (c :: rest) := by
        intro hmem
        exact absurd (hnames _ hmem) (by decide)
      have hunmarked : ∀ d digits, c :: rest = '0' :: d :: digits → isBaseMark d = false := by
        rintro d digits heq
        cases heq
        cases hdigit
      have hnone : Numeral.digitValue? 10 c = none := by
        by_contra hsome
        have hd := Numeral.isDigit_of_digitValue? (Option.isSome_iff_ne_none.mpr hsome)
        rw [hdigit] at hd
        cases hd
      have hnumber : number? (c :: rest) = none := by
        rw [number?_of_ne hminus (ne_of_test hname rfl), magnitude?_eq_decimal hplain hunmarked]
        simp [Numeral.read?, Numeral.readOnto?, hnone]
      have hlooks : looksNumeric (c :: rest) = false := by
        simp [looksNumeric, hdigit, hminus, hquote]
      simp [Term.ofText, hnumber, hlooks]

/-- What starts with a quote is a term only as the literal of one character. -/
theorem term_of_quote {rest : Text} (h : ('\'' :: rest).length ≠ 3) :
    Term.ofText ('\'' :: rest) = .malformed ('\'' :: rest) := by
  have hmagnitude : magnitude? ('\'' :: rest) = none := by
    unfold magnitude?
    split
    · rename_i heq
      cases heq
    · rename_i heq
      cases heq
    · rename_i heq
      cases heq
    · rename_i heq
      cases heq
    · rename_i heq
      exact absurd (congrArg List.length heq) h
    · rfl
  have hnumber : number? ('\'' :: rest) = none := by
    rw [number?_of_ne (by decide) (by decide), hmagnitude]
    rfl
  simp [Term.ofText, hnumber, looksNumeric]

/-! ## Terms -/

/-- A term of a sum as it is written. -/
inductive TermText
  | number (n : NumberText)
  /-- A number with a minus in front. -/
  | negative (n : NumberText)
  | label (name : Text) (valid : isLabel name = true)
  /-- A character between quotes. -/
  | character (c : Char) (ascii : c.toNat < 128)

namespace TermText

/-- The term as it is written. -/
def text : TermText → Text
  | number n => n.text
  | negative n => '-' :: n.text
  | label name _ => name
  | character c _ => charLiteral c

/-- The value of a term, unless it is a label that is not defined. -/
def value? (symbols : Symbols) : TermText → Option Int
  | number n => some n.value
  | negative n => some (-n.value)
  | label name _ => (symbols.find? name).map fun address => (address : Int)
  | character c _ => some c.toNat

/-- A number without a sign, or a label. -/
def IsBare : TermText → Prop
  | number _ | label _ _ => True
  | negative _ | character _ _ => False

/-- A term without a plus or a minus in it. -/
def IsUnsigned : TermText → Prop
  | number _ | label _ _ => True
  | negative _ => False
  | character c _ => c ≠ '+' ∧ c ≠ '-'

/-- A term that is no number with a minus in front. -/
def HasNoMinus : TermText → Prop
  | number _ | label _ _ | character _ _ => True
  | negative _ => False

/-- A term that an operator can follow. -/
def IsOpen : TermText → Prop
  | number _ | label _ _ | negative _ => True
  | character _ _ => False

variable {t : TermText}

theorem IsBare.isUnsigned (h : t.IsBare) : t.IsUnsigned := by
  cases t with
  | number _ | label _ _ => trivial
  | negative _ | character _ _ => cases h

theorem IsBare.isOpen (h : t.IsBare) : t.IsOpen := by
  cases t with
  | number _ | label _ _ => trivial
  | negative _ | character _ _ => cases h

theorem IsBare.hasNoMinus (h : t.IsBare) : t.HasNoMinus := by
  cases t with
  | number _ | label _ _ => trivial
  | negative _ | character _ _ => cases h

/-- Without a minus in front, the only terms with a sign in them are the characters of the signs. -/
theorem exists_of_not_isUnsigned (hminus : t.HasNoMinus) (h : ¬ t.IsUnsigned) :
    ∃ c sign, Sign.ofChar? c = some sign ∧ t.text = charLiteral c := by
  cases t with
  | number _ | label _ _ => exact absurd trivial h
  | negative _ => cases hminus
  | character c ascii =>
      rcases not_and_or.mp h with hplus | hminus
      · obtain rfl := not_not.mp hplus
        exact ⟨'+', .plus, rfl, rfl⟩
      · obtain rfl := not_not.mp hminus
        exact ⟨'-', .minus, rfl, rfl⟩

theorem text_ne_nil (t : TermText) : t.text ≠ [] := by
  cases t with
  | number n => exact n.text_ne_nil
  | negative n => exact List.cons_ne_nil _ _
  | label name valid =>
      rintro rfl
      cases valid
  | character c ascii => exact List.cons_ne_nil _ _

theorem tight_text (t : TermText) : Tight t.text := by
  cases t with
  | number n => exact tight_of_isNameChar n.isNameChar_text
  | negative n =>
      constructor
      · intro c hc
        obtain rfl := Option.some.inj hc
        rfl
      · intro c hc
        apply (tight_of_isNameChar n.isNameChar_text).last
        rwa [text, List.getLast?_cons_of_ne_nil n.text_ne_nil] at hc
  | label name valid => exact tight_of_isNameChar (isNameChar_of_isLabel valid)
  | character c ascii => exact (quoted_charLiteral c).tight

/-- A term is read for its value. -/
theorem toOption_eval_text (t : TermText) (symbols : Symbols) :
    ((Term.ofText t.text).eval symbols).toOption = t.value? symbols := by
  cases t with
  | number n =>
      rw [text, n.isNumeral.term]
      rfl
  | negative n =>
      have hnumber : number? ('-' :: n.text) = some (-(n.value : Int)) := by
        rw [number?, n.magnitude?_text]
        rfl
      simp [text, Term.ofText, hnumber, Term.eval, value?, Except.toOption]
  | label name valid =>
      rw [text, term_of_isLabel valid, Term.eval, value?]
      cases symbols.find? name with
      | none => rfl
      | some address => rfl
  | character c ascii =>
      rw [text, term_charLiteral ascii]
      rfl

theorem IsUnsigned.signOfChar? (h : t.IsUnsigned) : ∀ c ∈ t.text, Sign.ofChar? c = none := by
  cases t with
  | number n =>
      intro c hc
      exact signOfChar?_of_isNameChar (n.isNameChar_text c hc)
  | negative n => cases h
  | label name valid =>
      intro c hc
      exact signOfChar?_of_isNameChar (isNameChar_of_isLabel valid c hc)
  | character c ascii =>
      have hc : Sign.ofChar? c = none := by
        unfold Sign.ofChar?
        split
        · exact absurd rfl h.1
        · exact absurd rfl h.2
        · rfl
      simp only [text, charLiteral, List.forall_mem_cons]
      exact ⟨rfl, hc, rfl, List.forall_mem_nil _⟩

theorem IsOpen.head?_ne (h : t.IsOpen) : t.text.head? ≠ some '\'' := by
  have hname : ∀ {text : Text}, (∀ c ∈ text, isNameChar c = true) → text.head? ≠ some '\'' := by
    intro text hnames hhead
    exact absurd (hnames _ (List.mem_of_mem_head? hhead)) (by decide)
  cases t with
  | number n => exact hname n.isNameChar_text
  | negative n => exact fun hhead => absurd (Option.some.inj hhead) (by decide)
  | label name valid => exact hname (isNameChar_of_isLabel valid)
  | character c ascii => cases h

end TermText

end Accumulator.Assembly
