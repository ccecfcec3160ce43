import Accumulator.Proofs.Assembly.Terms

/-!
# Sums of terms

A sum is written as terms with operators between them and blanks around them. It is cut at its last
operator, so what stands before that is read first, and the terms are added and subtracted from left
to right.

Characters between quotes are numbers as well, but not in every place. A text that starts with a
quote is never cut, so no operator can follow a character at the start; and a plus or a minus
between quotes is taken for an operator anywhere but at the start.
-/

namespace Accumulator.Assembly

open Text

/-! ## Cutting at an operator -/

theorem cutAtLastSign_append {after : Text} {c : Char} {sign : Sign} (before : Text)
    (hc : Sign.ofChar? c = some sign) (hafter : ∀ d ∈ after, Sign.ofChar? d = none) :
    cutAtLastSign (before ++ c :: after) = some (before, sign, after) := by
  induction before with
  | nil =>
      rw [List.nil_append, cutAtLastSign, cutAtLastSign_eq_none_of_forall hafter, hc]
      rfl
  | cons d rest ih => rw [List.cons_append, cutAtLastSign, ih]

/-- What an expression is read as depends only on what is left when it is trimmed. -/
theorem Expression.ofText_congr {text other : Text} (h : text.trim = other.trim) :
    Expression.ofText text = Expression.ofText other := by
  rw [Expression.ofText_eq, Expression.ofText_eq other, h]

theorem Sign.isBlank_of_ofChar? {c : Char} {sign : Sign} (h : Sign.ofChar? c = some sign) :
    isBlank c = false := by
  unfold Sign.ofChar? at h
  split at h
  · rfl
  · rfl
  · cases h

theorem signOfChar?_of_isBlank {c : Char} (h : isBlank c = true) : Sign.ofChar? c = none := by
  cases hsign : Sign.ofChar? c with
  | none => rfl
  | some sign =>
      rw [Sign.isBlank_of_ofChar? hsign] at h
      cases h

/-- An expression is cut at its last operator, unless it starts with a quote. -/
theorem Expression.ofText_append {before after : Text} {c first : Char} {sign : Sign}
    (hc : Sign.ofChar? c = some sign) (hafter : ∀ d ∈ after, Sign.ofChar? d = none)
    (hfirst : before.trim.head? = some first) (hquote : first ≠ '\'') :
    Expression.ofText (before ++ c :: after) =
      .sum (Expression.ofText before) sign (Term.ofText after.trim) := by
  have hbefore : before.trim ≠ [] := by
    intro hnil
    rw [hnil] at hfirst
    cases hfirst
  have hright : ∀ d ∈ trimRight after, Sign.ofChar? d = none := by
    intro d hd
    exact hafter d ((trimRight_sublist after).subset hd)
  obtain ⟨rest, hrest⟩ := List.head?_eq_some_iff.mp (head?_dropWhile_isBlank hfirst)
  have hleft : Expression.ofText (first :: rest) = Expression.ofText before :=
    Expression.ofText_congr (hrest ▸ trim_dropWhile_isBlank before)
  rw [Expression.ofText_eq, trim_append_cons (Sign.isBlank_of_ofChar? hc) hbefore,
    cutAtLastSign_append _ hc hright, hrest]
  simp only [if_neg hquote, hleft, trim_trimRight]

/-! ## Values -/

/-- A text is read for a value in every build, so no sum on the way to it leaves the 64-bit numbers.
-/
def HasValue (symbols : Symbols) (text : Text) (v : Int) : Prop :=
  ∀ overflow, (Expression.ofText text).eval overflow symbols = .ok v

/-! ## Sums -/

/-- A term with the blanks around it. -/
structure PaddedTerm where
  before : Text
  term : TermText
  after : Text
  all_before : before.all isBlank = true
  all_after : after.all isBlank = true

/-- The term as it is written. -/
def PaddedTerm.text (p : PaddedTerm) : Text := p.before ++ p.term.text ++ p.after

theorem PaddedTerm.isBlank_before (p : PaddedTerm) : ∀ c ∈ p.before, isBlank c = true :=
  List.all_eq_true.mp p.all_before

theorem PaddedTerm.isBlank_after (p : PaddedTerm) : ∀ c ∈ p.after, isBlank c = true :=
  List.all_eq_true.mp p.all_after

theorem PaddedTerm.trim_text (p : PaddedTerm) : p.text.trim = p.term.text :=
  p.term.tight_text.trim_eq p.term.text_ne_nil _ _ p.isBlank_before p.isBlank_after

theorem Expression.ofText_of_isNameChar {text : Text} (h : ∀ c ∈ text, isNameChar c = true) :
    Expression.ofText text = .term (Term.ofText text) := by
  rw [Expression.ofText_eq, (tight_of_isNameChar h).trim_self, cutAtLastSign_eq_none h]

/-- A term by itself is not cut, also where it starts with a minus. -/
theorem TermText.ofText_text (t : TermText) :
    Expression.ofText t.text = .term (Term.ofText t.text) := by
  cases t with
  | number n => exact Expression.ofText_of_isNameChar n.isNameChar_text
  | negative n =>
      have hcut : cutAtLastSign ('-' :: n.text) = some ([], .minus, n.text) :=
        cutAtLastSign_append [] rfl fun c hc => signOfChar?_of_isNameChar (n.isNameChar_text c hc)
      rw [Expression.ofText_eq, (tight_text (.negative n)).trim_self, text, hcut]
  | label name valid => exact Expression.ofText_of_isNameChar (isNameChar_of_isLabel valid)
  | character c ascii => exact (quoted_charLiteral c).expression

theorem PaddedTerm.ofText_text (p : PaddedTerm) :
    Expression.ofText p.text = .term (Term.ofText p.term.text) := by
  rw [← p.term.ofText_text]
  apply Expression.ofText_congr
  rw [p.trim_text, p.term.tight_text.trim_self]

theorem PaddedTerm.signOfChar?_of_isUnsigned (p : PaddedTerm) (h : p.term.IsUnsigned) :
    ∀ c ∈ p.text, Sign.ofChar? c = none := by
  simp only [PaddedTerm.text, List.forall_mem_append]
  refine ⟨⟨?_, h.signOfChar?⟩, ?_⟩
  · intro c hc
    exact signOfChar?_of_isBlank (p.isBlank_before c hc)
  · intro c hc
    exact signOfChar?_of_isBlank (p.isBlank_after c hc)

/-- The character of an operator. -/
def Sign.char : Sign → Char
  | plus => '+'
  | minus => '-'

@[simp] theorem Sign.ofChar?_char (sign : Sign) : Sign.ofChar? sign.char = some sign := by
  cases sign with
  | plus => rfl
  | minus => rfl

/-- A sum as it is written: one term, or a sum with an operator and a term behind it. -/
inductive SumText
  | single (t : PaddedTerm)
  | step (left : SumText) (sign : Sign) (t : PaddedTerm)

namespace SumText

/-- The sum as it is written. -/
def text : SumText → Text
  | single t => t.text
  | step left sign t => left.text ++ sign.char :: t.text

/-- The value of a sum, added up from left to right, if all its labels are defined. -/
def value? (symbols : Symbols) : SumText → Option Int
  | single t => t.term.value? symbols
  | step left sign t => Option.map₂ sign.exact (left.value? symbols) (t.term.value? symbols)

/-- No sum or difference on the way to the value leaves the signed 64-bit numbers. -/
def Fits (symbols : Symbols) : SumText → Prop
  | single _ => True
  | step left sign t =>
      left.Fits symbols ∧ ∀ v ∈ (step left sign t).value? symbols, Is64Bit v

instance decidableFits (symbols : Symbols) : (s : SumText) → Decidable (s.Fits symbols)
  | single _ => isTrue trivial
  | step left sign t =>
      let _ := decidableFits symbols left
      inferInstanceAs (Decidable (_ ∧ ∀ v ∈ (step left sign t).value? symbols, Is64Bit v))

/-- The expression that the terms and the operators make up. -/
def expression : SumText → Expression
  | single t => .term (Term.ofText t.term.text)
  | step left sign t => .sum left.expression sign (Term.ofText t.term.text)

/-- The first term. -/
def first : SumText → TermText
  | single t => t.term
  | step left _ _ => left.first

/-- Nothing in a sum keeps it from being cut at each operator: the first term is no character, and
no later one has a sign in it. -/
def IsOpen : SumText → Prop
  | single t => t.term.IsOpen
  | step left _ t => left.IsOpen ∧ t.term.IsUnsigned

/-- A sum is one term, or it can be cut at each operator. -/
def IsSeparable : SumText → Prop
  | single _ => True
  | step left sign t => (step left sign t).IsOpen

/-- All terms are numbers or labels, with a minus in front of the first one at most. -/
def IsArithmetic : SumText → Prop
  | single t => t.term.IsOpen
  | step left _ t => left.IsArithmetic ∧ t.term.IsBare

/-- All terms are numbers without a sign or labels. -/
def IsBare : SumText → Prop
  | single t => t.term.IsBare
  | step left _ t => left.IsBare ∧ t.term.IsBare

variable {s : SumText}

theorem IsBare.isArithmetic (h : s.IsBare) : s.IsArithmetic := by
  induction s with
  | single t => exact TermText.IsBare.isOpen h
  | step left sign t ih => exact ⟨ih h.1, h.2⟩

theorem IsArithmetic.isOpen (h : s.IsArithmetic) : s.IsOpen := by
  induction s with
  | single t => exact h
  | step left sign t ih => exact ⟨ih h.1, h.2.isUnsigned⟩

theorem IsOpen.isSeparable (h : s.IsOpen) : s.IsSeparable := by
  cases s with
  | single t => trivial
  | step left sign t => exact h

theorem IsOpen.first (h : s.IsOpen) : s.first.IsOpen := by
  induction s with
  | single t => exact h
  | step left sign t ih => exact ih h.1

/-! ## Reading a sum -/

theorem exists_text_eq (s : SumText) :
    ∃ before after, (∀ c ∈ before, isBlank c = true) ∧
      s.text = before ++ s.first.text ++ after := by
  induction s with
  | single t => exact ⟨t.before, t.after, t.isBlank_before, rfl⟩
  | step left sign t ih =>
      obtain ⟨before, after, hbefore, htext⟩ := ih
      refine ⟨before, after ++ sign.char :: t.text, hbefore, ?_⟩
      rw [text, htext, List.append_assoc]
      rfl

/-- A sum starts with its first term, whatever follows it. -/
theorem head?_trim_text_append (s : SumText) (after : Text) :
    (s.text ++ after).trim.head? = s.first.text.head? := by
  obtain ⟨before, more, hbefore, htext⟩ := s.exists_text_eq
  obtain ⟨c, rest, hfirst⟩ := List.exists_cons_of_ne_nil s.first.text_ne_nil
  have hc : isBlank c = false := s.first.tight_text.head c (by rw [hfirst]; rfl)
  rw [hfirst]
  apply head?_trim before hbefore hc (rest ++ more ++ after)
  simp [htext, hfirst]

/-- A text that starts with a sum is cut at its last operator, unless the first term is a character.
-/
theorem ofText_text_append (hfirst : s.first.IsOpen) {c : Char} {sign : Sign} {after : Text}
    (hc : Sign.ofChar? c = some sign) (hafter : ∀ d ∈ after, Sign.ofChar? d = none)
    (before : Text) :
    Expression.ofText (s.text ++ before ++ c :: after) =
      .sum (Expression.ofText (s.text ++ before)) sign (Term.ofText after.trim) := by
  obtain ⟨d, hd⟩ := Option.isSome_iff_exists.mp (List.isSome_head?.mpr s.first.text_ne_nil)
  have hhead : (s.text ++ before).trim.head? = some d := (s.head?_trim_text_append before).trans hd
  apply Expression.ofText_append hc hafter hhead
  rintro rfl
  exact hfirst.head?_ne hd

/-- A sum that can be cut at each operator is read as it was put together. -/
theorem ofText_text (h : s.IsSeparable) : Expression.ofText s.text = s.expression := by
  induction s with
  | single t => exact t.ofText_text
  | step left sign t ih =>
      have hsigns := t.signOfChar?_of_isUnsigned h.2
      have hcut := ofText_text_append h.1.first sign.ofChar?_char hsigns []
      rw [List.append_nil, ih h.1.isSeparable, t.trim_text] at hcut
      exact hcut

/-! ## The value of a sum -/

variable {symbols : Symbols} {v : Int}

/-- The terms are added and subtracted from left to right. -/
theorem eval_expression (overflow : Overflow) (hvalue : s.value? symbols = some v)
    (hfits : s.Fits symbols) : s.expression.eval overflow symbols = .ok v := by
  induction s generalizing v with
  | single t =>
      have hterm := ok_of_toOption ((t.term.toOption_eval_text symbols).trans hvalue)
      rw [expression, Expression.eval, hterm]
  | step left sign t ih =>
      obtain ⟨a, b, hleft, hright, rfl⟩ := Option.map₂_eq_some_iff.mp hvalue
      have hterm := ok_of_toOption ((t.term.toOption_eval_text symbols).trans hright)
      rw [expression, Expression.eval, ih hleft hfits.1]
      simp only [hterm]
      exact overflow.settle_of_is64Bit (hfits.2 _ hvalue)

theorem hasValue_of_isSeparable (hseparable : s.IsSeparable) (hvalue : s.value? symbols = some v)
    (hfits : s.Fits symbols) : HasValue symbols s.text v := by
  intro overflow
  rw [ofText_text hseparable]
  exact eval_expression overflow hvalue hfits

/-- Numbers and labels with any blanks around them, the first number possibly with a minus, are
added and subtracted from left to right. -/
theorem hasValue_of_isArithmetic (harithmetic : s.IsArithmetic) (hvalue : s.value? symbols = some v)
    (hfits : s.Fits symbols) : HasValue symbols s.text v :=
  hasValue_of_isSeparable harithmetic.isOpen.isSeparable hvalue hfits

/-- Two labels with their addresses. -/
def twoLabels : Symbols := [("END".toList, 8), ("TABLE".toList, 300)]

/-- A number with a minus, two labels and a number in each of the other bases. -/
def mixed : SumText :=
  .step (.step (.step (.step
    (.single ⟨[' '], .negative ⟨.hexadecimal, ['0', 'x'], ['1', '0'], by decide, by decide,
      by decide, by decide⟩, [' '], by decide, by decide⟩)
    .plus ⟨[' '], .label "table".toList (by decide), ['\t'], by decide, by decide⟩)
    .minus ⟨[' '], .number ⟨.binary, ['0', 'b'], ['1', '1'], by decide, by decide, by decide,
      by decide⟩, [' '], by decide, by decide⟩)
    .minus ⟨[], .label "End".toList (by decide), [], by decide, by decide⟩)
    .plus ⟨[], .number ⟨.decimal, [], ['0', '0', '7'], by decide, by decide, by decide,
      by decide⟩, [], by decide, by decide⟩

theorem hasValue_mixed :
    mixed.IsArithmetic ∧ mixed.value? twoLabels = some 280 ∧ mixed.Fits twoLabels ∧
    HasValue twoLabels " -0x10 + table\t- 0b11 -End+007".toList 280 := by
  have harithmetic : mixed.IsArithmetic := ⟨⟨⟨⟨trivial, trivial⟩, trivial⟩, trivial⟩, trivial⟩
  have hvalue : mixed.value? twoLabels = some 280 := by decide
  have hfits : mixed.Fits twoLabels := by decide
  exact ⟨harithmetic, hvalue, hfits, hasValue_of_isArithmetic harithmetic hvalue hfits⟩

/-! ## Sums that are cut in the wrong place -/

/-- No term has a minus in front. -/
def HasNoMinus : SumText → Prop
  | single t => t.term.HasNoMinus
  | step left _ t => left.HasNoMinus ∧ t.term.HasNoMinus

theorem exists_trim_text_eq (left : SumText) (sign : Sign) (t : PaddedTerm) :
    ∃ more, more ≠ [] ∧ (step left sign t).text.trim = left.first.text ++ more := by
  obtain ⟨before, after, hbefore, htext⟩ := left.exists_text_eq
  obtain ⟨c, rest, hfirst⟩ := List.exists_cons_of_ne_nil left.first.text_ne_nil
  have hc : isBlank c = false := left.first.tight_text.head c (by rw [hfirst]; rfl)
  have hdrop : left.text.dropWhile isBlank = left.first.text ++ after := by
    rw [htext, List.append_assoc, List.dropWhile_append_of_pos hbefore, hfirst, List.cons_append,
      List.dropWhile_cons_of_neg (by simp [hc])]
  have hne : left.text.trim ≠ [] := by
    intro hnil
    have hhead := left.head?_trim_text_append []
    rw [List.append_nil, hnil, hfirst] at hhead
    cases hhead
  refine ⟨after ++ sign.char :: trimRight t.text, by simp, ?_⟩
  rw [text, trim_append_cons (Sign.isBlank_of_ofChar? sign.ofChar?_char) hne, hdrop,
    List.append_assoc]

/-- A character with anything behind it is taken for one term, and is none. -/
theorem exists_eval_error_of_character {left : SumText} (h : ¬ left.first.IsOpen) (sign : Sign)
    (t : PaddedTerm) :
    ∃ problem, ∀ overflow,
      (Expression.ofText (step left sign t).text).eval overflow symbols = .error problem := by
  obtain ⟨more, hmore, htrim⟩ := exists_trim_text_eq left sign t
  cases hterm : left.first with
  | number _ | negative _ | label _ _ => exact absurd (hterm ▸ trivial) h
  | character c ascii =>
      rw [hterm] at htrim
      have hlong : ('\'' :: c :: '\'' :: more).length ≠ 3 := by
        have := List.length_pos_of_ne_nil hmore
        simp
        omega
      refine ⟨.invalidNumber ('\'' :: c :: '\'' :: more), fun overflow => ?_⟩
      rw [Expression.ofText_of_quote (by rw [htrim]; rfl), htrim]
      exact congrArg (Term.eval symbols) (term_of_quote hlong)

/-- A sign between quotes is taken for an operator, with a single quote on either side of it. -/
theorem ofText_text_of_sign {left : SumText} (hfirst : left.first.IsOpen) (sign : Sign)
    {t : PaddedTerm} {c : Char} {other : Sign} (hc : Sign.ofChar? c = some other)
    (hterm : t.term.text = charLiteral c) :
    Expression.ofText (step left sign t).text =
      .sum (.sum (Expression.ofText left.text) sign (.malformed ['\''])) other
        (.malformed ['\'']) := by
  have hbefore : Term.ofText (trim (t.before ++ ['\''])) = .malformed ['\''] := by
    have htrim := quoted_quote.tight.trim_eq (List.cons_ne_nil _ _) t.before [] t.isBlank_before
      (List.forall_mem_nil _)
    rw [List.append_nil] at htrim
    rw [htrim, term_quote]
  have hafter : Term.ofText (trim ('\'' :: t.after)) = .malformed ['\''] := by
    have htrim := quoted_quote.tight.trim_eq (List.cons_ne_nil _ _) [] t.after
      (List.forall_mem_nil _) t.isBlank_after
    exact htrim ▸ term_quote
  have hsigns : ∀ d ∈ '\'' :: t.after, Sign.ofChar? d = none :=
    List.forall_mem_cons.mpr ⟨rfl, fun d hd => signOfChar?_of_isBlank (t.isBlank_after d hd)⟩
  have hblanks : ∀ d ∈ t.before ++ ['\''], Sign.ofChar? d = none :=
    List.forall_mem_append.mpr ⟨fun d hd => signOfChar?_of_isBlank (t.isBlank_before d hd),
      List.forall_mem_singleton.mpr rfl⟩
  have hcut := ofText_text_append hfirst hc hsigns (sign.char :: (t.before ++ ['\'']))
  have hinner := ofText_text_append hfirst sign.ofChar?_char hblanks []
  rw [List.append_nil] at hinner
  have htext : (step left sign t).text =
      left.text ++ sign.char :: (t.before ++ ['\'']) ++ c :: '\'' :: t.after := by
    simp [text, PaddedTerm.text, hterm, charLiteral]
  rw [htext, hcut, hinner, hbefore, hafter]

/-- The last sign between quotes leaves single quotes as terms, which are none. What stands in front
of it has its value or is refused itself. -/
theorem exists_eval_error_of_sign (hminus : s.HasNoMinus) (hfirst : s.first.IsOpen)
    (hvalue : s.value? symbols = some v) (hfits : s.Fits symbols) (h : ¬ s.IsOpen) :
    ∃ problem, ∀ overflow, (Expression.ofText s.text).eval overflow symbols = .error problem := by
  induction s generalizing v with
  | single t => exact absurd hfirst h
  | step left sign t ih =>
      have hfront : left.first.IsOpen := hfirst
      obtain ⟨a, b, hleft, _, _⟩ := Option.map₂_eq_some_iff.mp hvalue
      by_cases ht : t.term.IsUnsigned
      · obtain ⟨problem, hproblem⟩ :=
          ih hminus.1 hfront hleft hfits.1 fun hopen => h ⟨hopen, ht⟩
        have hcut := ofText_text_append hfront sign.ofChar?_char (t.signOfChar?_of_isUnsigned ht) []
        rw [List.append_nil] at hcut
        refine ⟨problem, fun overflow => ?_⟩
        rw [text, hcut, Expression.eval, hproblem]
      · obtain ⟨c, other, hc, hterm⟩ := t.term.exists_of_not_isUnsigned hminus.2 ht
        rw [ofText_text_of_sign hfront sign hc hterm]
        by_cases hopen : left.IsOpen
        · have heval := hasValue_of_isSeparable hopen.isSeparable hleft hfits.1
          refine ⟨.invalidNumber ['\''], fun overflow => ?_⟩
          rw [Expression.eval, Expression.eval, heval overflow]
          rfl
        · obtain ⟨problem, hproblem⟩ := ih hminus.1 hfront hleft hfits.1 hopen
          refine ⟨problem, fun overflow => ?_⟩
          rw [Expression.eval, Expression.eval, hproblem overflow]

/-- A sum that cannot be cut at its operators alone is refused, and for the same reason in every
build. -/
theorem exists_eval_error (hminus : s.HasNoMinus) (hvalue : s.value? symbols = some v)
    (hfits : s.Fits symbols) (h : ¬ s.IsSeparable) :
    ∃ problem, ∀ overflow, (Expression.ofText s.text).eval overflow symbols = .error problem := by
  cases s with
  | single t => exact absurd trivial h
  | step left sign t =>
      by_cases hfirst : left.first.IsOpen
      · exact exists_eval_error_of_sign hminus hfirst hvalue hfits h
      · exact exists_eval_error_of_character hfirst sign t

end SumText

/-! ## Characters in place of numbers -/

/-- A term is written again as it was, or a number is written as its character. -/
inductive TermText.Respelled : TermText → TermText → Prop
  | same (t : TermText) : Respelled t t
  | character (n : NumberText) (c : Char) (ascii : c.toNat < 128) (h : n.value = c.toNat) :
      Respelled (.number n) (.character c ascii)

theorem TermText.Respelled.value?_eq {t t' : TermText} (h : t.Respelled t') (symbols : Symbols) :
    t'.value? symbols = t.value? symbols := by
  cases h with
  | same => rfl
  | character n c ascii h => rw [value?, value?, h]

theorem TermText.Respelled.hasNoMinus {t t' : TermText} (h : t.Respelled t') (hbare : t.IsBare) :
    t'.HasNoMinus := by
  cases h with
  | same => exact hbare.hasNoMinus
  | character n c ascii h => trivial

/-- A sum is written again with the same operators; some of its numbers are written as characters.
-/
inductive SumText.Respelled : SumText → SumText → Prop
  | single {t t' : PaddedTerm} (h : t.term.Respelled t'.term) : Respelled (.single t) (.single t')
  | step {left left' : SumText} {t t' : PaddedTerm} (sign : Sign) (hleft : left.Respelled left')
      (h : t.term.Respelled t'.term) : Respelled (.step left sign t) (.step left' sign t')

namespace SumText

variable {s s' : SumText} {symbols : Symbols} {v : Int}

theorem Respelled.value?_eq (h : s.Respelled s') (symbols : Symbols) :
    s'.value? symbols = s.value? symbols := by
  induction h with
  | single h => exact h.value?_eq symbols
  | step sign hleft h ih => rw [value?, value?, ih, h.value?_eq]

theorem Respelled.fits (h : s.Respelled s') (hfits : s.Fits symbols) : s'.Fits symbols := by
  induction h with
  | single h => trivial
  | step sign hleft h ih =>
      refine ⟨ih hfits.1, ?_⟩
      rw [(hleft.step sign h).value?_eq]
      exact hfits.2

theorem Respelled.hasNoMinus (h : s.Respelled s') (hbare : s.IsBare) : s'.HasNoMinus := by
  induction h with
  | single h => exact h.hasNoMinus hbare
  | step sign hleft h ih => exact ⟨ih hbare.1, h.hasNoMinus hbare.2⟩

/-- Numbers can be written as characters exactly where the sum can still be cut at its operators:
its value stays the same there, and everywhere else the text is refused. -/
theorem hasValue_respelled (hbare : s.IsBare) (hvalue : s.value? symbols = some v)
    (hfits : s.Fits symbols) (h : s.Respelled s') :
    HasValue symbols s.text v ∧ (s'.IsSeparable → HasValue symbols s'.text v) ∧
    (¬ s'.IsSeparable → ∃ problem, ∀ overflow,
      (Expression.ofText s'.text).eval overflow symbols = .error problem) := by
  refine ⟨?_, ?_, ?_⟩
  · exact hasValue_of_isSeparable hbare.isArithmetic.isOpen.isSeparable hvalue hfits
  · intro hseparable
    exact hasValue_of_isSeparable hseparable ((h.value?_eq symbols).trans hvalue) (h.fits hfits)
  · exact exists_eval_error (h.hasNoMinus hbare) ((h.value?_eq symbols).trans hvalue) (h.fits hfits)

/-- One, a number for the letter `A` and a label, with the number written in a given way. -/
def aroundLetter (t : TermText) : SumText :=
  .step (.step
    (.single ⟨[], .number ⟨.decimal, [], ['1'], by decide, by decide, by decide, by decide⟩, [' '],
      by decide, by decide⟩)
    .plus ⟨[' '], t, [' '], by decide, by decide⟩)
    .minus ⟨[], .label "End".toList (by decide), [], by decide, by decide⟩

theorem hasValue_aroundLetter :
    HasValue twoLabels "1 + 0x41 -End".toList 58 ∧ HasValue twoLabels "1 + 'A' -End".toList 58 := by
  let n : NumberText :=
    ⟨.hexadecimal, ['0', 'x'], ['4', '1'], by decide, by decide, by decide, by decide⟩
  have hbare : (aroundLetter (.number n)).IsBare := ⟨⟨trivial, trivial⟩, trivial⟩
  have hvalue : (aroundLetter (.number n)).value? twoLabels = some 58 := by decide
  have hfits : (aroundLetter (.number n)).Fits twoLabels := by decide
  have hseparable : (aroundLetter (.character 'A' (by decide))).IsSeparable :=
    ⟨⟨trivial, by decide, by decide⟩, trivial⟩
  have hletter : TermText.Respelled (.number n) (.character 'A' (by decide)) :=
    .character n 'A' (by decide) (by decide)
  have hrespelled : (aroundLetter (.number n)).Respelled
      (aroundLetter (.character 'A' (by decide))) :=
    .step .minus (.step .plus (.single (.same _)) hletter) (.same _)
  have hall := hasValue_respelled hbare hvalue hfits hrespelled
  exact ⟨hall.1, hall.2.1 hseparable⟩

/-- A character is not read for its number in front of an operator, and a sign between quotes is not
read for its number behind one. -/
theorem character_terms_refused :
    (Expression.ofText "65+1".toList).eval .wraps [] = .ok 66 ∧
    (Expression.ofText "'A'+1".toList).eval .wraps [] = .error (.invalidNumber "'A'+1".toList) ∧
    (Expression.ofText "1+43".toList).eval .wraps [] = .ok 44 ∧
    (Expression.ofText "1+'+'".toList).eval .wraps [] = .error (.invalidNumber "'".toList) := by
  decide +kernel

end SumText
end Accumulator.Assembly
