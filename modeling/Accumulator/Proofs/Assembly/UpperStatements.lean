import Accumulator.Assembly.Statement
import Accumulator.Proofs.Text.Case

/-!
# Statements in upper case

Labels, mnemonics, directives and numerals are read in letters of either case; only a character
between quotes keeps its case. Reading a text without quotes in upper case gives what reading the
text itself gives, with the texts that are kept in it in upper case.
-/

namespace Accumulator.Assembly

open Text

/-- A text without quotes. -/
def Plain (text : Text) : Prop := '\'' ∉ text

theorem Plain.sublist {part text : Text} (h : Plain text) (hpart : part.Sublist text) :
    Plain part := fun hquote => h (hpart.subset hquote)

theorem caseBlind_quote : CaseBlind (· == '\'') := caseBlind_of_forall (by decide)

theorem Plain.upper {text : Text} (h : Plain text) : Plain text.upper :=
  mt (mem_upper text caseBlind_quote).mp h

/-! ## Numbers -/

/-- The letters that mark the base of a numeral. -/
def isBaseMark (c : Char) : Bool := c == 'x' || c == 'X' || c == 'b' || c == 'B'

theorem caseBlind_isBaseMark : CaseBlind isBaseMark := caseBlind_of_forall (by decide)

theorem magnitude?_eq_decimal {text : Text} (h : Plain text)
    (hmark : ∀ c digits, text = '0' :: c :: digits → isBaseMark c = false) :
    magnitude? text = (Numeral.read? 10 text).filter (· < magnitudeBound) := by
  unfold magnitude?
  split
  · cases hmark _ _ rfl
  · cases hmark _ _ rfl
  · cases hmark _ _ rfl
  · cases hmark _ _ rfl
  · exact absurd (List.mem_cons_self ..) h
  · rfl

theorem magnitude?_upper {text : Text} (h : Plain text) :
    magnitude? text.upper = magnitude? text := by
  -- Without a mark both texts are decimal; with one, both cases of the mark name the same base.
  by_cases hmark : ∀ c digits, text = '0' :: c :: digits → isBaseMark c = false
  · have hupper : ∀ c digits, text.upper = '0' :: c :: digits → isBaseMark c = false := by
      intro c digits hc
      obtain ⟨zero, after, rfl, hzero, hafter⟩ := List.map_eq_cons_iff.mp hc
      obtain ⟨mark, rest, rfl, rfl, _⟩ := List.map_eq_cons_iff.mp hafter
      rw [toUpper_eq_iff (caseBlind_of_forall (by decide))] at hzero
      rw [caseBlind_isBaseMark mark, hmark mark rest (hzero ▸ rfl)]
    rw [magnitude?_eq_decimal h.upper hupper, magnitude?_eq_decimal h hmark, Numeral.read?_upper]
  · push Not at hmark
    obtain ⟨c, digits, rfl, hc⟩ := hmark
    simp only [isBaseMark, Bool.or_eq_true, beq_iff_eq, or_assoc, ne_eq, Bool.not_eq_false] at hc
    rcases hc with rfl | rfl | rfl | rfl
    · exact congrArg (Option.filter _) (Numeral.read?_upper 16 digits)
    · exact congrArg (Option.filter _) (Numeral.read?_upper 16 digits)
    · exact congrArg (Option.filter _) (Numeral.read?_upper 2 digits)
    · exact congrArg (Option.filter _) (Numeral.read?_upper 2 digits)

theorem number?_of_ne {c : Char} (hminus : c ≠ '-') (hplus : c ≠ '+') (rest : Text) :
    number? (c :: rest) = (magnitude? (c :: rest)).map fun n => (n : Int) := by
  unfold number?
  split
  · rename_i heq
    cases heq
    exact absurd rfl hminus
  · rename_i heq
    cases heq
    exact absurd rfl hplus
  · rfl

/-- The value of a number does not depend on the case of its letters. -/
theorem number?_upper {text : Text} (h : Plain text) : number? text.upper = number? text := by
  cases text with
  | nil => rfl
  | cons c rest =>
      by_cases hminus : c = '-'
      · subst hminus
        have hrest := magnitude?_upper (h.sublist (List.sublist_cons_self ..))
        have hupper : upper ('-' :: rest) = '-' :: upper rest := rfl
        rw [hupper, number?, number?, hrest]
      · by_cases hplus : c = '+'
        · subst hplus
          have hupper : upper ('+' :: rest) = '+' :: upper rest := rfl
          rw [hupper, number?, number?, Numeral.read?_upper]
        · have hminus' := mt (toUpper_eq_iff (caseBlind_of_forall (by decide))).mp hminus
          have hplus' := mt (toUpper_eq_iff (caseBlind_of_forall (by decide))).mp hplus
          rw [number?_of_ne hminus hplus, ← magnitude?_upper h]
          exact number?_of_ne hminus' hplus' (upper rest)

theorem looksNumeric_upper (text : Text) : looksNumeric text.upper = looksNumeric text := by
  cases text with
  | nil => rfl
  | cons c rest =>
      have hblind : CaseBlind fun c => c.isDigit || c == '-' || c == '\'' :=
        caseBlind_of_forall (by decide)
      exact hblind c

/-! ## Expressions -/

/-- A term with its texts in upper case. -/
def Term.uppercased : Term → Term
  | malformed text => malformed text.upper
  | label name => label name.upper
  | term => term

/-- An expression with its texts in upper case. -/
def Expression.uppercased : Expression → Expression
  | term t => term t.uppercased
  | sum left sign right => sum left.uppercased sign right.uppercased

theorem Term.ofText_upper {text : Text} (h : Plain text) :
    Term.ofText text.upper = (Term.ofText text).uppercased := by
  rw [Term.ofText, Term.ofText, isEmpty_upper, number?_upper h, looksNumeric_upper]
  split
  · rfl
  · cases number? text with
    | some value => rfl
    | none =>
        cases looksNumeric text with
        | true => rfl
        | false => rfl

theorem caseBlind_signOfChar? : CaseBlind Sign.ofChar? := caseBlind_of_forall (by decide)

theorem cutAtLastSign_upper (text : Text) :
    cutAtLastSign text.upper =
      (cutAtLastSign text).map fun parts => (parts.1.upper, parts.2.1, parts.2.2.upper) := by
  induction text with
  | nil => rfl
  | cons c rest ih =>
      rw [upper_cons, cutAtLastSign, cutAtLastSign, ih, caseBlind_signOfChar? c]
      cases cutAtLastSign rest with
      | some parts => rfl
      | none =>
          cases Sign.ofChar? c with
          | none => rfl
          | some sign => rfl

theorem exists_of_cutAtLastSign {text before after : Text} {sign : Sign}
    (h : cutAtLastSign text = some (before, sign, after)) :
    ∃ c, Sign.ofChar? c = some sign ∧ text = before ++ c :: after := by
  induction text generalizing before with
  | nil => cases h
  | cons c rest ih =>
      rw [cutAtLastSign] at h
      cases hrest : cutAtLastSign rest with
      | none =>
          simp only [hrest, Option.map_eq_some_iff] at h
          obtain ⟨_, hsign, heq⟩ := h
          cases heq
          exact ⟨c, hsign, rfl⟩
      | some parts =>
          obtain ⟨earlier, other, later⟩ := parts
          simp only [hrest] at h
          cases h
          obtain ⟨d, hd, rfl⟩ := ih hrest
          exact ⟨d, hd, rfl⟩

theorem sublist_of_cutAtLastSign {text before after : Text} {sign : Sign}
    (h : cutAtLastSign text = some (before, sign, after)) :
    before.Sublist text ∧ after.Sublist text := by
  obtain ⟨c, _, rfl⟩ := exists_of_cutAtLastSign h
  constructor
  · exact List.sublist_append_left ..
  · exact (List.sublist_cons_self ..).trans (List.sublist_append_right ..)

theorem Expression.ofText_eq (text : Text) :
    Expression.ofText text =
      match cutAtLastSign text.trim with
      | some (first :: before, sign, after) =>
          if first = '\'' then .term (Term.ofText text.trim)
          else .sum (Expression.ofText (first :: before)) sign (Term.ofText after.trim)
      | _ => .term (Term.ofText text.trim) := by
  rw [Expression.ofText]
  split
  · rename_i heq
    rw [heq]
  · rename_i heq
    split
    · rename_i heq'
      exact absurd heq' (heq _ _ _ _)
    · rfl

theorem Expression.ofText_upper {text : Text} (h : Plain text) :
    Expression.ofText text.upper = (Expression.ofText text).uppercased := by
  induction text using Expression.ofText.induct with
  | case1 text before sign after hcut =>
      -- The text would start with a quote.
      obtain ⟨hbefore, _⟩ := sublist_of_cutAtLastSign hcut
      exact absurd (List.mem_cons_self ..) ((h.sublist (trim_sublist text)).sublist hbefore)
  | case2 text first before sign after hcut hfirst ih =>
      have htrim := h.sublist (trim_sublist text)
      obtain ⟨hbefore, hafter⟩ := sublist_of_cutAtLastSign hcut
      have hleft := ih (htrim.sublist hbefore)
      have hright := Term.ofText_upper ((htrim.sublist hafter).sublist (trim_sublist after))
      have hfirst' := mt (toUpper_eq_iff caseBlind_quote).mp hfirst
      rw [Expression.ofText_eq, trim_upper, cutAtLastSign_upper, hcut, Expression.ofText_eq text,
        hcut]
      simp only [Option.map_some, upper_cons, if_neg hfirst, if_neg hfirst', trim_upper, hright]
      exact congrArg (Expression.sum · sign _) hleft
  | case3 text hcut =>
      have hterm := Term.ofText_upper (h.sublist (trim_sublist text))
      rw [Expression.ofText_eq, trim_upper, cutAtLastSign_upper, Expression.ofText_eq text]
      cases hparts : cutAtLastSign text.trim with
      | none => exact congrArg Expression.term hterm
      | some parts =>
          obtain ⟨before, sign, after⟩ := parts
          cases before with
          | nil => exact congrArg Expression.term hterm
          | cons first before => exact absurd hparts (hcut first before sign after)

/-! ## Statements -/

/-- A problem with the texts that it quotes in upper case. -/
def Problem.uppercased : Problem → Problem
  | invalidLabel label => invalidLabel label.upper
  | duplicateLabel label => duplicateLabel label.upper
  | undefinedLabel label => undefinedLabel label.upper
  | unknownMnemonic word => unknownMnemonic word.upper
  | unexpectedOperand mnemonic => unexpectedOperand mnemonic.upper
  | missingOperand mnemonic => missingOperand mnemonic.upper
  | missingValues directive => missingValues directive.upper
  | invalidNumber term => invalidNumber term.upper
  | problem => problem

/-- A statement with the texts of its operands in upper case. -/
def Statement.uppercased : Statement → Statement
  | instruction opcode operand => instruction opcode (operand.map Expression.uppercased)
  | bytes items => bytes (items.map Expression.uppercased)
  | words items => words (items.map Expression.uppercased)
  | origin target => origin target.uppercased

theorem ofName?_upper (word : Text) : Opcode.ofName? word.upper = Opcode.ofName? word := by
  rw [Opcode.ofName?, Opcode.ofName?, upper_upper]

theorem cutOperand_upper (body : Text) :
    cutOperand body.upper = ((cutOperand body).1.upper, (cutOperand body).2.map Text.upper) := by
  rw [cutOperand, cutOperand, cutAtFirst_upper body caseBlind_isBlank]
  cases body.cutAtFirst isBlank with
  | none => rfl
  | some parts =>
      obtain ⟨word, rest⟩ := parts
      simp only [Option.map_some, trim_upper, isEmpty_upper]
      split
      · rfl
      · rfl

theorem cutOperand_sublist {body word : Text} {operand : Option Text}
    (h : cutOperand body = (word, operand)) : ∀ text ∈ operand, text.Sublist body := by
  rw [cutOperand] at h
  cases hcut : body.cutAtFirst isBlank with
  | none =>
      rw [hcut] at h
      cases h
      simp
  | some parts =>
      obtain ⟨first, rest⟩ := parts
      obtain ⟨_, hrest⟩ := sublist_of_cutAtFirst hcut
      rw [hcut] at h
      simp only [Prod.mk.injEq] at h
      obtain ⟨_, rfl⟩ := h
      intro text htext
      split at htext
      · cases htext
      · cases htext
        exact (trim_sublist rest).trans hrest

theorem items_upper (text : Text) :
    (text.upper.pieces (· == ',')).map trim =
      ((text.pieces (· == ',')).map trim).map Text.upper := by
  have hcomma : CaseBlind (· == ',') := caseBlind_of_forall (by decide)
  rw [pieces_upper text hcomma, List.map_map, List.map_map]
  exact List.map_congr_left fun piece _ => trim_upper piece

theorem readItems_upper {directive : Text} (hdirective : directive.upper = directive)
    {operand : Option Text} (h : ∀ text ∈ operand, Plain text) :
    readItems directive (operand.map Text.upper) =
      ((readItems directive operand).map (List.map Expression.uppercased)).mapError
        Problem.uppercased := by
  have hmissing : Problem.missingValues directive = (Problem.missingValues directive).uppercased :=
    congrArg Problem.missingValues hdirective.symm
  cases operand with
  | none => exact congrArg Except.error hmissing
  | some text =>
      have hitem : ∀ item ∈ (text.pieces (· == ',')).map trim,
          Expression.ofText item.upper = (Expression.ofText item).uppercased := by
        intro item hitem
        obtain ⟨piece, hpiece, rfl⟩ := List.mem_map.mp hitem
        have hsublist := (trim_sublist piece).trans (sublist_of_mem_pieces hpiece)
        exact Expression.ofText_upper ((h text rfl).sublist hsublist)
      have hempty : List.isEmpty ∘ Text.upper = List.isEmpty := funext isEmpty_upper
      simp only [Option.map_some, readItems, items_upper, List.any_map, hempty]
      generalize (text.pieces (· == ',')).map trim = items at hitem
      split
      · exact congrArg Except.error hmissing
      · refine congrArg Except.ok ?_
        rw [List.map_map, List.map_map]
        exact List.map_congr_left hitem

theorem readInstruction_upper (word : Text) {operand : Option Text}
    (h : ∀ text ∈ operand, Plain text) :
    readInstruction word.upper (operand.map Text.upper) =
      ((readInstruction word operand).map Statement.uppercased).mapError Problem.uppercased := by
  rw [readInstruction, readInstruction, ofName?_upper]
  cases Opcode.ofName? word with
  | none => rfl
  | some opcode =>
      dsimp only
      cases operand with
      | none =>
          cases opcode.form with
          | none => rfl
          | immediate | zeroPage | absolute => rfl
      | some text =>
          have htext := Expression.ofText_upper (h text rfl)
          cases opcode.form with
          | none => rfl
          | immediate | zeroPage | absolute =>
              exact congrArg (fun e => Except.ok (Statement.instruction opcode (some e))) htext

/-- A statement is read in letters of either case. -/
theorem Statement.ofText_upper {body : Text} (h : Plain body) :
    Statement.ofText body.upper =
      ((Statement.ofText body).map Statement.uppercased).mapError Problem.uppercased := by
  have hcut := cutOperand_upper body
  cases hparts : cutOperand body with
  | mk word operand =>
      have hoperand : ∀ text ∈ operand, Plain text :=
        fun text htext => h.sublist (cutOperand_sublist hparts text htext)
      rw [hparts] at hcut
      simp only [Statement.ofText, hcut, hparts, upper_upper]
      split
      · cases operand with
        | none => rfl
        | some text =>
            have htext := Expression.ofText_upper (hoperand text rfl)
            exact congrArg (fun e => Except.ok (Statement.origin e)) htext
      · split
        · rw [readItems_upper rfl hoperand]
          cases readItems ['D', 'B'] operand with
          | error problem => rfl
          | ok items => rfl
        · split
          · rw [readItems_upper rfl hoperand]
            cases readItems ['D', 'W'] operand with
            | error problem => rfl
            | ok items => rfl
          · exact readInstruction_upper word hoperand

/-! ## Source lines -/

/-- A source line with its parts in upper case. -/
def SourceLine.uppercased (source : SourceLine) : SourceLine :=
  ⟨source.label.map Text.upper, Text.upper source.body⟩

theorem isLabel_upper (text : Text) : isLabel text.upper = isLabel text := by
  cases text with
  | nil => rfl
  | cons c rest =>
      have hfirst : CaseBlind fun c => c.isAlpha || c == '_' := caseBlind_of_forall (by decide)
      have hrest : CaseBlind fun c => c.isAlphanum || c == '_' := caseBlind_of_forall (by decide)
      exact congrArg₂ (· && ·) (hfirst c) (all_upper rest hrest)

theorem stripComment_upper (quoted : Bool) (text : Text) :
    stripComment quoted text.upper = (stripComment quoted text).upper := by
  induction text generalizing quoted with
  | nil => rfl
  | cons c rest ih =>
      have hquote : c.toUpper = '\'' ↔ c = '\'' := toUpper_eq_iff caseBlind_quote
      have hsemicolon : c.toUpper = ';' ↔ c = ';' :=
        toUpper_eq_iff (caseBlind_of_forall (by decide))
      simp only [upper_cons, stripComment, hquote, hsemicolon, ih]
      split
      · rfl
      · split
        · rfl
        · rfl

theorem SourceLine.ofText_upper (line : Text) :
    SourceLine.ofText line.upper = (SourceLine.ofText line).uppercased := by
  have hquote (before : Text) : before.upper.contains '\'' = before.contains '\'' := by
    rw [Bool.eq_iff_iff, List.contains_iff_mem, List.contains_iff_mem,
      mem_upper before caseBlind_quote]
  have hcolon : CaseBlind (· == ':') := caseBlind_of_forall (by decide)
  simp only [SourceLine.ofText, stripComment_upper, trim_upper, cutAtFirst_upper _ hcolon]
  cases (stripComment false line).trim.cutAtFirst (· == ':') with
  | none => rfl
  | some parts =>
      obtain ⟨before, after⟩ := parts
      simp only [Option.map_some, hquote]
      split
      · rfl
      · rw [trim_upper, trim_upper]
        rfl

theorem stripComment_sublist (quoted : Bool) (text : Text) :
    (stripComment quoted text).Sublist text := by
  induction text generalizing quoted with
  | nil => exact List.Sublist.refl []
  | cons c rest ih =>
      rw [stripComment]
      split
      · exact (ih _).cons_cons c
      · split
        · exact List.nil_sublist _
        · exact (ih _).cons_cons c

theorem body_sublist (line : Text) : (SourceLine.ofText line).body.Sublist line := by
  have hcode : (stripComment false line).trim.Sublist line :=
    (trim_sublist _).trans (stripComment_sublist false line)
  simp only [SourceLine.ofText]
  cases hcut : (stripComment false line).trim.cutAtFirst (· == ':') with
  | none => exact hcode
  | some parts =>
      obtain ⟨before, after⟩ := parts
      obtain ⟨_, hafter⟩ := sublist_of_cutAtFirst hcut
      dsimp only
      split
      · exact hcode
      · exact ((trim_sublist after).trans hafter).trans hcode

end Accumulator.Assembly
