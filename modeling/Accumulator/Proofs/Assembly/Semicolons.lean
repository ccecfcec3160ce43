import Accumulator.Proofs.Assembly.Concatenation
import Accumulator.Proofs.Assembly.Terms

/-!
# Semicolons in code

A semicolon ends the code of a line unless a quote is open in front of it. The only place that is
left for one in the code is then its own literal, where it directly follows a quote: nothing else
with a semicolon in it is a label, a mnemonic or a number. So every semicolon in the code of a
source that can be assembled directly follows a quote. The parts that a line is cut into have this
property one by one, and a text has it if the parts that it is put together from do.
-/

namespace Accumulator.Assembly

open Text

variable {overflow : Overflow} {text : Text} {symbols : Symbols}

/-! ## Texts and their parts -/

/-- Every semicolon directly follows a quote. -/
def SemicolonsQuoted (text : Text) : Prop :=
  ∀ before after, text = before ++ ';' :: after → before.getLast? = some '\''

namespace SemicolonsQuoted

theorem of_not_mem (h : ';' ∉ text) : SemicolonsQuoted text := by
  rintro before after rfl
  exact absurd (List.mem_append_right _ List.mem_cons_self) h

theorem append {second : Text} (h : SemicolonsQuoted text) (hsecond : SemicolonsQuoted second) :
    SemicolonsQuoted (text ++ second) := by
  intro before after heq
  rcases List.append_eq_append_iff.mp heq with ⟨middle, rfl, hmiddle⟩ | ⟨middle, hmiddle, hrest⟩
  · have hlast := hsecond middle after hmiddle
    rw [List.getLast?_append, hlast]
    rfl
  · cases middle with
    | nil =>
        have hlast := hsecond [] after hrest.symm
        cases hlast
    | cons c rest =>
        obtain ⟨rfl, _⟩ := List.cons.inj hrest
        exact h before rest hmiddle

theorem cons {c : Char} (hc : c ≠ ';') (h : SemicolonsQuoted text) : SemicolonsQuoted (c :: text) :=
  (of_not_mem (mt List.mem_singleton.mp hc.symm)).append h

theorem of_forall {test : Char → Bool} (hmark : test ';' = false) (h : ∀ c ∈ text, test c = true) :
    SemicolonsQuoted text :=
  of_not_mem fun hmem => ne_of_test (h ';' hmem) hmark rfl

theorem of_trim (h : SemicolonsQuoted text.trim) : SemicolonsQuoted text := by
  obtain ⟨before, after, hbefore, hafter, heq⟩ := exists_eq_append_trim text
  rw [heq]
  exact ((of_forall rfl hbefore).append h).append (of_forall rfl hafter)

theorem of_pieces (test : Char → Bool) (hmark : test ';' = false)
    (h : ∀ piece ∈ pieces test text, SemicolonsQuoted piece) : SemicolonsQuoted text := by
  generalize hpieces : pieces test text = items at h
  induction items generalizing text with
  | nil => exact absurd hpieces (pieces_ne_nil test text)
  | cons first others ih =>
      rw [List.forall_mem_cons] at h
      rcases exists_of_pieces_eq_cons hpieces with ⟨rfl, rfl⟩ | ⟨c, rest, hc, rfl, hrest⟩
      · exact h.1
      · exact h.1.append ((ih hrest h.2).cons (ne_of_test hc hmark))

/-- No semicolon follows a blank. -/
theorem not_blank (before after : Text) : ¬ SemicolonsQuoted (before ++ ' ' :: ';' :: after) := by
  intro h
  have hlast := h (before ++ [' ']) after (by simp)
  simp at hlast

theorem of_read? {base n : Nat} (h : Numeral.read? base text = some n) : SemicolonsQuoted text := by
  apply of_forall (by decide : Char.isAlphanum ';' = false)
  intro c hc
  exact Numeral.isAlphanum_of_digitValue? (Numeral.isSome_digit_of_read? h c hc)

theorem of_isNameChar (h : ∀ c ∈ text, isNameChar c = true) : SemicolonsQuoted text :=
  of_forall rfl h

/-- The literal of a semicolon has a quote in front of it. -/
theorem of_charLiteral (c : Char) : SemicolonsQuoted (charLiteral c) := by
  intro before after heq
  rcases before with _ | ⟨a, _ | ⟨b, rest⟩⟩
  · cases heq
  · cases heq
    rfl
  · have hlast : ['\''] = rest ++ ';' :: after := (List.cons.inj (List.cons.inj heq).2).2
    have hmem : ';' ∈ ['\''] := hlast ▸ List.mem_append_right rest List.mem_cons_self
    exact absurd hmem (by decide)

theorem of_magnitude? {n : Nat} (h : magnitude? text = some n) : SemicolonsQuoted text := by
  have hdigits : ∀ {base : Nat} {digits : Text},
      (Numeral.read? base digits).filter (· < magnitudeBound) = some n → SemicolonsQuoted digits :=
    fun hread => of_read? (Option.filter_eq_some_iff.mp hread).1
  unfold magnitude? at h
  split at h
  · exact ((hdigits h).cons (by decide)).cons (by decide)
  · exact ((hdigits h).cons (by decide)).cons (by decide)
  · exact ((hdigits h).cons (by decide)).cons (by decide)
  · exact ((hdigits h).cons (by decide)).cons (by decide)
  · exact of_charLiteral _
  · exact hdigits h

theorem of_number? {v : Int} (h : number? text = some v) : SemicolonsQuoted text := by
  unfold number? at h
  split at h
  · rename_i rest
    cases hread : magnitude? rest with
    | none => simp [hread] at h
    | some n => exact (of_magnitude? hread).cons (by decide)
  · rename_i rest
    cases hread : Numeral.read? 10 rest with
    | none => simp [hread] at h
    | some n => exact (of_read? hread).cons (by decide)
  · cases hread : magnitude? text with
    | none => simp [hread] at h
    | some n => exact of_magnitude? hread

end SemicolonsQuoted

/-! ## Labels -/

/-- All names of a symbol table are labels. -/
def Symbols.AreLabels (symbols : Symbols) : Prop := ∀ entry ∈ symbols, isLabel entry.1 = true

theorem Symbols.AreLabels.of_find? (h : symbols.AreLabels) {name : Text} {address : Nat}
    (hfind : symbols.find? name = some address) : isLabel name = true := by
  obtain ⟨_, _, hsymbols, _⟩ := List.lookup_eq_some_iff.mp hfind
  rw [← isLabel_upper]
  exact h (name.upper, address) (hsymbols ▸ List.mem_append_right _ List.mem_cons_self)

namespace Draft

variable {draft next : Draft} {lines : List (Text × Nat)}

theorem isLabel_of_defineLabel {label : Option Text} (h : draft.defineLabel label = .ok next) :
    ∀ name ∈ label, isLabel name = true := by
  rintro name rfl
  rw [defineLabel, define] at h
  split at h
  · cases h
  · rename_i hlabel
    simpa using hlabel

theorem areLabels_of_defineLabel {label : Option Text} (h : draft.symbols.AreLabels)
    (hdefine : draft.defineLabel label = .ok next) : next.symbols.AreLabels := by
  have hlabel := isLabel_of_defineLabel hdefine
  cases defines_of_ok hdefine with
  | unlabelled => exact h
  | @label name fresh =>
      have hupper : isLabel name.upper = true := (isLabel_upper name).trans (hlabel name rfl)
      exact List.forall_mem_cons.mpr ⟨hupper, h⟩

theorem areLabels_of_readLines (h : draft.symbols.AreLabels)
    (hread : draft.readLines overflow lines = .ok next) : next.symbols.AreLabels := by
  induction lines generalizing draft with
  | nil =>
      obtain rfl := Except.ok.inj hread
      exact h
  | cons head tail ih =>
      obtain ⟨middle, hhead, htail⟩ := exists_of_readLines_cons hread
      obtain ⟨labelled, hlabel, hbody⟩ := readLine_ok_iff.mp hhead
      refine ih ?_ htail
      rw [(places_of_ok hbody).symbols_eq]
      exact areLabels_of_defineLabel h hlabel

end Draft

/-! ## Expressions that have a value -/

namespace SemicolonsQuoted

theorem of_eval_term (hlabels : symbols.AreLabels) {v : Int}
    (h : (Term.ofText text).eval symbols = .ok v) : SemicolonsQuoted text := by
  rw [Term.ofText] at h
  split at h
  · cases h
  · split at h
    · rename_i value hnumber
      exact of_number? hnumber
    · split at h
      · cases h
      · rw [Term.eval] at h
        split at h
        · rename_i address hfind
          exact of_isNameChar (isNameChar_of_isLabel (hlabels.of_find? hfind))
        · cases h

/-- Where an expression has a value, each semicolon in it is one of a literal. -/
theorem of_eval (hlabels : symbols.AreLabels) {v : Int}
    (h : (Expression.ofText text).eval overflow symbols = .ok v) : SemicolonsQuoted text := by
  induction text using Expression.ofText.induct generalizing v with
  | case1 text before sign after hcut =>
      rw [Expression.ofText_eq, hcut] at h
      exact of_trim (of_eval_term hlabels h)
  | case2 text first before sign after hcut hfirst ih =>
      rw [Expression.ofText_eq, hcut] at h
      simp only [if_neg hfirst] at h
      obtain ⟨a, b, hleft, hright, _⟩ := Expression.exists_of_eval_sum h
      obtain ⟨c, hc, htext⟩ := exists_of_cutAtLastSign hcut
      have hsign : c ≠ ';' := by
        rintro rfl
        cases hc
      apply of_trim
      rw [htext]
      exact (ih hleft).append ((of_trim (of_eval_term hlabels hright)).cons hsign)
  | case3 text hcut =>
      rw [Expression.ofText_eq] at h
      split at h
      · rename_i first before sign after hparts
        exact absurd hparts (hcut first before sign after)
      · exact of_trim (of_eval_term hlabels h)

end SemicolonsQuoted

/-! ## Statements that have bytes -/

/-- The expressions of a statement. -/
def Statement.operands : Statement → List Expression
  | .instruction _ operand => operand.toList
  | .bytes items | .words items => items
  | .origin target => [target]

theorem exists_eval_of_operandBytes {e : Expression} {form : OperandForm} {bytes : List UInt8}
    (hform : form ≠ .none) (h : operandBytes overflow symbols e form = .ok bytes) :
    ∃ v, e.eval overflow symbols = .ok v := by
  cases form with
  | none => exact absurd rfl hform
  | immediate | zeroPage | absolute =>
      obtain ⟨v, hv, _⟩ := exists_of_bind_ok h
      exact ⟨v, hv⟩

theorem exists_eval_of_listBytes {items : List Expression} {form : OperandForm} {bytes : List UInt8}
    (hform : form ≠ .none) (h : listBytes overflow symbols form items = .ok bytes) :
    ∀ e ∈ items, ∃ v, e.eval overflow symbols = .ok v := by
  intro e he
  obtain ⟨chunks, hchunks, _⟩ := exists_of_map_ok h
  cases hbytes : operandBytes overflow symbols e form with
  | ok own => exact exists_eval_of_operandBytes hform hbytes
  | error problem =>
      obtain ⟨other, hother⟩ :=
        exists_mapM_error_of_mem (f := (operandBytes overflow symbols · form)) he hbytes
      rw [hchunks] at hother
      cases hother

/-- A statement that yields bytes has a value for each of its expressions. -/
theorem exists_eval_of_bytes {p : Placed} {bytes : List UInt8} (hsized : p.Sized overflow symbols)
    (h : p.bytes overflow symbols = .ok bytes) :
    ∀ e ∈ p.statement.operands, ∃ v, e.eval overflow symbols = .ok v := by
  obtain ⟨line, address, size, statement⟩ := p
  obtain ⟨hformed, htakes⟩ := hsized
  cases statement with
  | instruction opcode operand =>
      intro e he
      obtain rfl : operand = some e := Option.mem_toList.mp he
      obtain ⟨stored, hstored, _⟩ := exists_of_map_ok h
      exact exists_eval_of_operandBytes (fun hnone => by cases hformed.mpr hnone) hstored
  | bytes items => exact exists_eval_of_listBytes (by decide) h
  | words items => exact exists_eval_of_listBytes (by decide) h
  | origin target => exact List.forall_mem_singleton.mpr ⟨_, htakes⟩

theorem exists_of_cutOperand {body word : Text} {operand : Option Text}
    (h : cutOperand body = (word, operand)) :
    ∃ blanks more, (∀ c ∈ blanks, isBlank c = true) ∧ (∀ c ∈ more, isBlank c = true) ∧
      body = word ++ (blanks ++ operand.getD [] ++ more) := by
  rw [cutOperand] at h
  cases hcut : body.cutAtFirst isBlank with
  | none =>
      rw [hcut] at h
      cases h
      exact ⟨[], [], List.forall_mem_nil _, List.forall_mem_nil _, by simp⟩
  | some parts =>
      obtain ⟨first, rest⟩ := parts
      obtain ⟨c, hc, rfl⟩ := exists_of_cutAtFirst hcut
      obtain ⟨blanks, more, hblanks, hmore, hrest⟩ := exists_eq_append_trim rest
      rw [hcut] at h
      simp only [Prod.mk.injEq] at h
      obtain ⟨rfl, rfl⟩ := h
      have hoperand : (if rest.trim.isEmpty then none else some rest.trim).getD [] = rest.trim := by
        split
        · rename_i hempty
          exact (List.isEmpty_iff.mp hempty).symm
        · rfl
      refine ⟨c :: blanks, more, List.forall_mem_cons.mpr ⟨hc, hblanks⟩, hmore, ?_⟩
      rw [hoperand, List.cons_append, List.cons_append, ← hrest]

namespace SemicolonsQuoted

theorem of_readItems (hlabels : symbols.AreLabels) {directive : Text} {operand : Option Text}
    {items : List Expression} (h : readItems directive operand = .ok items)
    (hvalues : ∀ e ∈ items, ∃ v, e.eval overflow symbols = .ok v) :
    SemicolonsQuoted (operand.getD []) := by
  cases operand with
  | none => cases h
  | some text =>
      rw [readItems] at h
      split at h
      · cases h
      · obtain rfl := Except.ok.inj h
        apply of_pieces (· == ',') rfl
        intro piece hpiece
        obtain ⟨v, hv⟩ := hvalues _ (List.mem_map_of_mem (List.mem_map_of_mem hpiece))
        exact of_trim (of_eval hlabels hv)

theorem not_mem_of_upper {word name : Text} (h : word.upper = name) (hname : ';' ∉ name) :
    ';' ∉ word := by
  have hmark : CaseBlind (· == ';') := caseBlind_of_forall (by decide)
  rwa [← mem_upper word hmark, h]

theorem not_mem_of_ofName? {word : Text} {opcode : Opcode}
    (h : Opcode.ofName? word = some opcode) : ';' ∉ word := by
  have hmnemonic := List.find?_some h
  have hall : ∀ op : Opcode, ';' ∉ op.mnemonic := by
    intro op
    cases op <;> decide
  exact not_mem_of_upper (beq_iff_eq.mp hmnemonic).symm (hall opcode)

/-- The word that a statement starts with has no semicolons, and what follows it has its semicolons
in literals if its expressions have values. -/
theorem of_readFrom (hlabels : symbols.AreLabels) {word : Text} {operand : Option Text}
    {statement : Statement} (h : statement.ReadFrom word operand)
    (hvalues : ∀ e ∈ statement.operands, ∃ v, e.eval overflow symbols = .ok v) :
    ';' ∉ word ∧ SemicolonsQuoted (operand.getD []) := by
  cases h with
  | origin name =>
      obtain ⟨v, hv⟩ := List.forall_mem_singleton.mp hvalues
      exact ⟨not_mem_of_upper name (by decide), of_eval hlabels hv⟩
  | bytes name read | words name read =>
      refine ⟨?_, of_readItems hlabels read hvalues⟩
      rcases name with name | name
      · exact not_mem_of_upper name (by decide)
      · exact not_mem_of_upper name (by decide)
  | bare name => exact ⟨not_mem_of_ofName? name, of_not_mem List.not_mem_nil⟩
  | full name =>
      obtain ⟨v, hv⟩ := List.forall_mem_singleton.mp hvalues
      exact ⟨not_mem_of_ofName? name, of_eval hlabels hv⟩

/-- What a statement is read from has its semicolons in literals if its expressions have values. -/
theorem of_statement (hlabels : symbols.AreLabels) {body : Text}
    {statement : Statement} (hread : Statement.ofText body = .ok statement)
    (hvalues : ∀ e ∈ statement.operands, ∃ v, e.eval overflow symbols = .ok v) :
    SemicolonsQuoted body := by
  obtain ⟨word, operand, hcut, hfrom⟩ := exists_readFrom_of_ofText hread
  obtain ⟨blanks, more, hblanks, hmore, hbody⟩ := exists_of_cutOperand hcut
  obtain ⟨hword, hoperand⟩ := of_readFrom hlabels hfrom hvalues
  have hrest := ((of_forall rfl hblanks).append hoperand).append (of_forall rfl hmore)
  rw [hbody]
  exact (of_not_mem hword).append hrest

end SemicolonsQuoted

/-! ## Sources that assemble -/

theorem SemicolonsQuoted.of_body {line : Text}
    (hlabel : ∀ name ∈ (SourceLine.ofText line).label, isLabel name = true)
    (hbody : SemicolonsQuoted (SourceLine.ofText line).body) :
    SemicolonsQuoted (stripComment false line) := by
  apply of_trim
  rw [SourceLine.ofText] at hlabel hbody
  cases hcut : (stripComment false line).trim.cutAtFirst (· == ':') with
  | none =>
      simp only [hcut] at hbody
      exact hbody
  | some parts =>
      obtain ⟨before, after⟩ := parts
      simp only [hcut] at hlabel hbody
      split at hbody
      · exact hbody
      · rename_i hquote
        rw [if_neg hquote] at hlabel
        obtain ⟨c, hc, hcode⟩ := exists_of_cutAtFirst hcut
        have hbefore : SemicolonsQuoted before :=
          of_trim (of_isNameChar (isNameChar_of_isLabel (hlabel _ rfl)))
        have hmark : c ≠ ';' := by
          rintro rfl
          exact absurd hc (by decide)
        rw [hcode]
        exact hbefore.append ((of_trim hbody).cons hmark)

variable {base : UInt16} {source : Text} {output : List UInt8}

theorem Draft.semicolonsQuoted_of_readLines {draft : Draft} {lines : List (Text × Nat)}
    (h : (start base).readLines overflow lines = .ok draft)
    (hfinish : draft.finish overflow = .ok output) :
    ∀ line ∈ lines, SemicolonsQuoted (stripComment false line.1) := by
  intro line hline
  have hlaid := (laid_start base).readLines h
  have hstart : (start base).symbols.AreLabels := List.forall_mem_nil _
  have hlabels := areLabels_of_readLines hstart h
  obtain ⟨earlier, later, rfl⟩ := List.append_of_mem hline
  obtain ⟨middle, _, hrest⟩ := exists_of_readLines_append h
  obtain ⟨next, hread, hlater⟩ := exists_of_readLines_cons hrest
  obtain ⟨labelled, hlabel, _⟩ := readLine_ok_iff.mp hread
  apply SemicolonsQuoted.of_body (isLabel_of_defineLabel hlabel)
  cases hstatement : hasStatement line with
  | false =>
      have hempty : (SourceLine.ofText line.1).body = [] := by simpa [hasStatement] using hstatement
      rw [hempty]
      exact .of_not_mem List.not_mem_nil
  | true =>
      obtain ⟨p, hplaced, hstem, _⟩ := exists_placed_of_readLine hread hstatement
      have hp : p ∈ draft.placed.toList := by
        apply (growsTo_of_readLines hlater).placed.subset
        rw [hplaced]
        exact List.mem_append_right _ (List.mem_singleton_self p)
      obtain ⟨_, bytes, _, hbytes, _⟩ :=
        exists_parts_of_mem hlaid.contiguous hlaid.sized hfinish hp
      exact .of_statement hlabels hstem.read (exists_eval_of_bytes (hlaid.sized p hp) hbytes)

/-- In a source that assembles, every semicolon in the code of a line directly follows a quote. -/
theorem semicolonsQuoted_of_assemble (h : assemble source base overflow = .ok output) :
    ∀ piece ∈ pieces (· == '\n') source, SemicolonsQuoted (stripComment false piece) := by
  intro piece hpiece
  obtain ⟨draft, hdraft, hfinish⟩ := exists_of_assemble_ok h
  rw [Draft.ofSource_eq_pieces] at hdraft
  have hnumbered : piece ∈ ((pieces (· == '\n') source).zipIdx 1).map Prod.fst := by
    rwa [List.zipIdx_map_fst]
  obtain ⟨line, hline, rfl⟩ := List.mem_map.mp hnumbered
  exact Draft.semicolonsQuoted_of_readLines hdraft hfinish line hline

end Accumulator.Assembly
