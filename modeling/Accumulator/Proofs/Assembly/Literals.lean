import Accumulator.Proofs.Listing.RoundTrip
import Accumulator.Proofs.Assembly.UpperStatements
import Accumulator.Proofs.Results
import Mathlib.Algebra.Group.Nat.Even

/-!
# Lists of character literals

Characters between quotes are assembled to their codes, but not every list of them. A comma ends an
item also between quotes, and since every quote opens or closes a literal, the literal of a quote
leaves one open: a semicolon between quotes then counts as the start of a comment.
-/

namespace Accumulator.Assembly

open Text

/-- A character between quotes. -/
def charLiteral (c : Char) : Text := ['\'', c, '\'']

/-- The data directive for a list of characters. -/
def literalLine (cs : List Char) : Text := dataLine (cs.map charLiteral)

/-- A list of characters can be written as literals: there is no comma in it, and an even number of
quotes in front of each semicolon. -/
def IsListable (cs : List Char) : Prop :=
  ',' ∉ cs ∧ ∀ n < cs.length, cs[n]? = some ';' → Even ((cs.take n).count '\'')

instance (cs : List Char) : Decidable (IsListable cs) := inferInstanceAs (Decidable (_ ∧ _))

/-! ## Comments -/

/-- The items that are left of the literals of characters when the comment is stripped. A semicolon
starts one if a quote is open in front of its literal, and leaves the first quote of the literal. -/
def keptItems : Bool → List Char → List Text
  | _, [] => []
  | quoted, c :: rest =>
      if c = ';' ∧ quoted = true then [['\'']]
      else charLiteral c :: keptItems (quoted ^^ (c == '\'')) rest

theorem stripComment_charLiteral (quoted : Bool) (c : Char) (rest : Text) :
    stripComment quoted (charLiteral c ++ rest) =
      if c = ';' ∧ quoted = true then ['\'']
      else charLiteral c ++ stripComment (quoted ^^ (c == '\'')) rest := by
  by_cases hquote : c = '\''
  · subst hquote
    simp [charLiteral, stripComment]
  · by_cases hsemicolon : c = ';'
    · subst hsemicolon
      cases quoted <;> simp [charLiteral, stripComment]
    · have hbeq : (c == '\'') = false := beq_eq_false_iff_ne.mpr hquote
      simp [charLiteral, stripComment, hquote, hsemicolon, hbeq]

theorem stripComment_separator (quoted : Bool) (rest : Text) :
    stripComment quoted (',' :: ' ' :: rest) = ',' :: ' ' :: stripComment quoted rest := by
  simp [stripComment]

theorem keptItems_cons (quoted : Bool) (c : Char) (rest : List Char) :
    keptItems quoted (c :: rest) =
      if c = ';' ∧ quoted = true then [['\'']]
      else charLiteral c :: keptItems (quoted ^^ (c == '\'')) rest := rfl

theorem keptItems_ne_nil (quoted : Bool) {cs : List Char} (hne : cs ≠ []) :
    keptItems quoted cs ≠ [] := by
  obtain ⟨c, rest, rfl⟩ := List.exists_cons_of_ne_nil hne
  rw [keptItems_cons]
  split <;> simp

theorem stripComment_join (quoted : Bool) (cs : List Char) :
    stripComment quoted (join [',', ' '] (cs.map charLiteral)) =
      join [',', ' '] (keptItems quoted cs) := by
  induction cs generalizing quoted with
  | nil => rfl
  | cons c rest ih =>
      cases rest with
      | nil =>
          rw [List.map_singleton, join_singleton, ← List.append_nil (charLiteral c),
            stripComment_charLiteral, keptItems_cons]
          split
          · rfl
          · simp [stripComment, keptItems, join_singleton]
      | cons d rest =>
          obtain ⟨item, items, hitems⟩ := List.exists_cons_of_ne_nil
            (keptItems_ne_nil (quoted ^^ (c == '\'')) (List.cons_ne_nil d rest))
          rw [List.map_cons, List.map_cons, join_cons_cons, List.append_assoc,
            stripComment_charLiteral, keptItems_cons]
          split
          · rfl
          · rw [List.cons_append, List.cons_append, List.nil_append, stripComment_separator,
              ← List.map_cons, ih, hitems, join_cons_cons]
            simp

theorem stripComment_literalLine (cs : List Char) :
    stripComment false (literalLine cs) = dataLine (keptItems false cs) := by
  rw [dataLine, ← stripComment_join]
  simp [literalLine, dataLine, stripComment]

/-- A quote in front turns an even number of quotes into an odd one, and closes an open literal. -/
theorem even_count_cons (quoted : Bool) (c : Char) (cs : List Char) :
    (Even ((c :: cs).count '\'') ↔ quoted = false) ↔
      (Even (cs.count '\'') ↔ (quoted ^^ (c == '\'')) = false) := by
  by_cases hquote : c = '\''
  · subst hquote
    rw [List.count_cons_self, Nat.even_add_one]
    cases quoted
    · simp
    · simp
  · rw [List.count_cons_of_ne hquote, beq_eq_false_iff_ne.mpr hquote, Bool.xor_false]

/-- All items are kept if no quote is open in front of the literal of a semicolon. -/
theorem keptItems_eq_iff (quoted : Bool) (cs : List Char) :
    keptItems quoted cs = cs.map charLiteral ↔
      ∀ n < cs.length, cs[n]? = some ';' →
        (Even ((cs.take n).count '\'') ↔ quoted = false) := by
  induction cs generalizing quoted with
  | nil => simp [keptItems]
  | cons c rest ih =>
      rw [keptItems_cons, List.map_cons]
      split
      · rename_i hcut
        obtain ⟨rfl, rfl⟩ := hcut
        constructor
        · intro h
          simp [charLiteral] at h
        · intro h
          have hfirst := h 0 (Nat.succ_pos _) rfl
          simp at hfirst
      · rename_i hclear
        rw [List.cons.injEq, and_iff_right rfl, ih]
        constructor
        · intro h n hn hc
          cases n with
          | zero =>
              obtain rfl : c = ';' := Option.some.inj hc
              simpa using hclear
          | succ n =>
              rw [List.take_succ_cons, even_count_cons]
              exact h n (Nat.lt_of_succ_lt_succ hn) hc
        · intro h n hn hc
          have hlater := h (n + 1) (Nat.succ_lt_succ hn) hc
          rwa [List.take_succ_cons, even_count_cons] at hlater

theorem mem_keptItems_of_ne {quoted : Bool} {cs : List Char}
    (h : keptItems quoted cs ≠ cs.map charLiteral) : ['\''] ∈ keptItems quoted cs := by
  induction cs generalizing quoted with
  | nil => exact absurd rfl h
  | cons c rest ih =>
      rw [keptItems_cons] at h ⊢
      split
      · exact List.mem_singleton_self _
      · rename_i hclear
        rw [if_neg hclear, List.map_cons] at h
        apply List.mem_cons_of_mem
        apply ih
        intro hrest
        exact h (by rw [hrest])

/-! ## Items -/

/-- A text that starts and ends with a quote. -/
structure Quoted (text : Text) : Prop where
  head : text.head? = some '\''
  last : text.getLast? = some '\''

theorem quoted_quote : Quoted ['\''] := ⟨rfl, rfl⟩

theorem quoted_charLiteral (c : Char) : Quoted (charLiteral c) := ⟨rfl, rfl⟩

theorem Quoted.ne_nil {text : Text} (h : Quoted text) : text ≠ [] := by
  rintro rfl
  cases h.head

theorem Quoted.tight {text : Text} (h : Quoted text) : Tight text := by
  constructor
  · intro c hc
    obtain rfl := Option.some.inj (h.head.symm.trans hc)
    rfl
  · intro c hc
    obtain rfl := Option.some.inj (h.last.symm.trans hc)
    rfl

/-- An expression that starts with a quote is one term. -/
theorem Expression.ofText_of_quote {text : Text} (h : text.trim.head? = some '\'') :
    Expression.ofText text = .term (Term.ofText text.trim) := by
  rw [Expression.ofText_eq]
  split
  · rename_i first before sign after hcut
    obtain ⟨c, _, heq⟩ := exists_of_cutAtLastSign hcut
    rw [heq] at h
    rw [if_pos (Option.some.inj h)]
  · rfl

/-- Signs between quotes do not cut an expression. -/
theorem Quoted.expression {text : Text} (h : Quoted text) :
    Expression.ofText text = .term (Term.ofText text) := by
  have hhead : text.trim.head? = some '\'' := by
    rw [h.tight.trim_self]
    exact h.head
  rw [Expression.ofText_of_quote hhead, h.tight.trim_self]

theorem term_charLiteral {c : Char} (h : c.toNat < 128) :
    Term.ofText (charLiteral c) = .number c.toNat := by
  simp [Term.ofText, charLiteral, number?, magnitude?, h]

theorem term_quote : Term.ofText ['\''] = .malformed ['\''] := by decide

theorem eq_of_mem_keptItems {quoted : Bool} {cs : List Char} {item : Text}
    (h : item ∈ keptItems quoted cs) : item = ['\''] ∨ ∃ c, item = charLiteral c := by
  induction cs generalizing quoted with
  | nil => cases h
  | cons c rest ih =>
      rw [keptItems_cons] at h
      split at h
      · exact .inl (List.mem_singleton.mp h)
      · rcases List.mem_cons.mp h with rfl | h
        · exact .inr ⟨c, rfl⟩
        · exact ih h

theorem quoted_of_mem_keptItems {quoted : Bool} {cs : List Char} :
    ∀ item ∈ keptItems quoted cs, Quoted item := by
  intro item hitem
  obtain rfl | ⟨c, rfl⟩ := eq_of_mem_keptItems hitem
  · exact quoted_quote
  · exact quoted_charLiteral c

/-- The literal of a comma falls apart into two quotes. -/
theorem split_charLiteral (c : Char) :
    (pieces (· == ',') (charLiteral c)).map trim =
      if c = ',' then [['\''], ['\'']] else [charLiteral c] := by
  split
  · rename_i hcomma
    subst hcomma
    rfl
  · rename_i hcomma
    have hplain : ∀ d ∈ charLiteral c, (d == ',') = false := by
      simp [charLiteral, hcomma]
    rw [pieces_eq_singleton hplain, List.map_singleton, (quoted_charLiteral c).tight.trim_self]

theorem quoted_of_mem_splitItems {quoted : Bool} {cs : List Char} :
    ∀ item ∈ splitItems (keptItems quoted cs), Quoted item := by
  intro item hitem
  obtain ⟨kept, hkept, hpart⟩ := List.mem_flatMap.mp hitem
  obtain rfl | ⟨c, rfl⟩ := eq_of_mem_keptItems hkept
  · obtain rfl : item = ['\''] := List.mem_singleton.mp hpart
    exact quoted_quote
  · rw [split_charLiteral] at hpart
    split at hpart
    · obtain rfl : item = ['\''] := by simpa using hpart
      exact quoted_quote
    · obtain rfl := List.mem_singleton.mp hpart
      exact quoted_charLiteral c

/-! ## Lines -/

theorem statement_dataLine {items : List Text} (hne : items ≠ [])
    (h : ∀ item ∈ items, Quoted item) (hsplit : ∀ item ∈ splitItems items, Quoted item) :
    Statement.ofText (dataLine items) =
      .ok (.bytes ((splitItems items).map fun item => .term (Term.ofText item))) := by
  have hexpressions : (splitItems items).map Expression.ofText =
      (splitItems items).map fun item => .term (Term.ofText item) :=
    List.map_congr_left fun item hitem => (hsplit item hitem).expression
  rw [← hexpressions]
  exact ofText_dataLine hne (fun item hitem => (h item hitem).ne_nil)
    (fun item hitem => (h item hitem).tight) (fun item hitem => (hsplit item hitem).ne_nil)

/-- A quote in front of the first colon keeps it from ending a label. -/
theorem sourceLine_dataLine {line : Text} {items : List Text} (hne : items ≠ [])
    (h : ∀ item ∈ items, Quoted item) (hstrip : stripComment false line = dataLine items) :
    SourceLine.ofText line = ⟨none, dataLine items⟩ := by
  have hnotEmpty : ∀ item ∈ items, item ≠ [] := fun item hitem => (h item hitem).ne_nil
  have htight : Tight (dataLine items) := by
    have hjoined : Tight (join [',', ' '] items) :=
      tight_join [',', ' '] hnotEmpty fun item hitem => (h item hitem).tight
    have hname : Tight ['D', 'B'] := tight_of_isNameChar (List.all_eq_true.mp rfl)
    simpa [dataLine] using hname.append hjoined (by simp) (join_ne_nil _ hne hnotEmpty) [' ']
  obtain ⟨after, hafter⟩ : ∃ after, dataLine items = ['D', 'B', ' ', '\''] ++ after := by
    obtain ⟨first, rest, rfl⟩ := List.exists_cons_of_ne_nil hne
    obtain ⟨after, hjoin⟩ := List.head?_eq_some_iff.mp
      ((head?_join [',', ' '] rest (hnotEmpty first List.mem_cons_self)).trans
        (h first List.mem_cons_self).head)
    exact ⟨after, by rw [dataLine, hjoin]; rfl⟩
  have hfront : ∀ c ∈ ['D', 'B', ' ', '\''], (c == ':') = false := by simp
  simp only [SourceLine.ofText, hstrip, htight.trim_self]
  rw [hafter, cutAtFirst_append_of_forall after hfront]
  cases cutAtFirst (· == ':') after with
  | none => rfl
  | some parts => rfl

theorem emit_singleton (overflow : Overflow) (symbols : Symbols) (placed : Placed) :
    emit overflow symbols [placed] = placed.emit overflow symbols := by
  rw [emit, mapM_cons_eq]
  cases placed.emit overflow symbols with
  | error e => rfl
  | ok bytes => exact congrArg Except.ok (List.append_nil bytes)

/-- A source of one line with a list of bytes assembles to the list if it fits. -/
theorem assemble_line {line body : Text} {items : List Expression} (hlines : line.lines = [line])
    (hline : SourceLine.ofText line = ⟨none, body⟩) (hne : body ≠ [])
    (hstatement : Statement.ofText body = .ok (.bytes items)) (base : UInt16)
    (overflow : Overflow) :
    assemble line base overflow =
      if base.toNat + items.length ≤ Draft.addressLimit then
        (listBytes overflow [] .immediate items).mapError (⟨1, ·⟩)
      else .error ⟨1, .pastLastAddress⟩ := by
  have hread := readLine_of_body hline hne hstatement overflow (.start base) 1
  have hsize : (Draft.start base).sizeOf overflow (.bytes items) = .ok items.length := rfl
  rw [assemble, Draft.ofSource, hlines]
  by_cases hfit : base.toNat + items.length ≤ Draft.addressLimit
  · rw [place_fits hsize hfit] at hread
    rw [if_pos hfit, readLines_cons hread]
    exact emit_singleton overflow [] ⟨1, base.toNat, items.length, .bytes items⟩
  · rw [place_overflows hsize (Nat.lt_of_not_le hfit)] at hread
    rw [if_neg hfit, readLines_cons_error hread]

/-! ## Bytes -/

theorem listBytes_characters (overflow : Overflow) (symbols : Symbols) {cs : List Char}
    (h : ∀ c ∈ cs, c.toNat < 128) :
    listBytes overflow symbols .immediate (cs.map fun c => literal c.toNat) =
      .ok (cs.map fun c => UInt8.ofNat c.toNat) := by
  rw [← listBytes_literal overflow symbols, List.map_map]
  congr 1
  apply List.map_congr_left
  intro c hc
  have hsmall : c.toNat < 256 := Nat.lt_trans (h c hc) (by decide)
  rw [Function.comp_apply, UInt8.toNat_ofNat_of_lt' hsmall]

/-- Single terms are the same bytes in every build. -/
theorem listBytes_terms (overflow : Overflow) (symbols : Symbols) (form : OperandForm)
    (terms : List Term) :
    listBytes overflow symbols form (terms.map .term) =
      listBytes .wraps symbols form (terms.map .term) := by
  have hitem : (fun t => operandBytes overflow symbols (.term t) form) =
      fun t => operandBytes .wraps symbols (.term t) form := by
    funext t
    cases form <;> rfl
  simp only [listBytes, List.mapM_map, Function.comp_def, hitem]

theorem exists_listBytes_error (symbols : Symbols) {items : List Text} (h : ['\''] ∈ items) :
    ∃ problem, ∀ overflow,
      listBytes overflow symbols .immediate (items.map fun item => .term (Term.ofText item)) =
        .error problem := by
  have hmem : Expression.term (Term.ofText ['\'']) ∈
      items.map fun item => Expression.term (Term.ofText item) := List.mem_map_of_mem h
  have hitem : operandBytes .wraps symbols (.term (Term.ofText ['\''])) .immediate =
      .error (.invalidNumber ['\'']) := by
    rw [term_quote]
    rfl
  obtain ⟨problem, hall⟩ :=
    exists_mapM_error_of_mem (f := fun e => operandBytes .wraps symbols e .immediate) hmem hitem
  have hterms : (items.map fun item => Expression.term (Term.ofText item)) =
      (items.map Term.ofText).map .term := (List.map_map ..).symm
  refine ⟨problem, fun overflow => ?_⟩
  rw [hterms, listBytes_terms, ← hterms, listBytes, hall]
  rfl

/-! ## Lists of characters -/

theorem isListable_iff {cs : List Char} :
    IsListable cs ↔ ',' ∉ cs ∧ keptItems false cs = cs.map charLiteral := by
  rw [keptItems_eq_iff]
  simp only [IsListable, iff_true]

theorem splitItems_map_charLiteral {cs : List Char} (h : ',' ∉ cs) :
    splitItems (cs.map charLiteral) = cs.map charLiteral := by
  have hsplit : ∀ c ∈ cs, (pieces (· == ',') (charLiteral c)).map trim = [charLiteral c] := by
    intro c hc
    rw [split_charLiteral, if_neg]
    rintro rfl
    exact h hc
  rw [splitItems, List.flatMap_map, List.flatMap_congr hsplit, List.map_eq_flatMap]

/-- What cannot be listed leaves a single quote as an item. -/
theorem mem_splitItems_of_not_isListable {cs : List Char} (h : ¬ IsListable cs) :
    ['\''] ∈ splitItems (keptItems false cs) := by
  rw [isListable_iff] at h
  apply List.mem_flatMap.mpr
  by_cases hkept : keptItems false cs = cs.map charLiteral
  · have hcomma : ',' ∈ cs := by
      by_contra hno
      exact h ⟨hno, hkept⟩
    refine ⟨charLiteral ',', ?_, ?_⟩
    · rw [hkept]
      exact List.mem_map_of_mem hcomma
    · rw [split_charLiteral, if_pos rfl]
      exact List.mem_cons_self
  · exact ⟨['\''], mem_keptItems_of_ne hkept, List.mem_cons_self⟩

theorem lines_literalLine {cs : List Char} (h : ∀ c ∈ cs, Listing.isPrintable c = true) :
    (literalLine cs).lines = [literalLine cs] := by
  have hliterals : ∀ c ∈ join [',', ' '] (cs.map charLiteral), Listing.isPrintable c = true := by
    apply forall_mem_join (List.all_eq_true.mp rfl)
    intro item hitem
    obtain ⟨c, hc, rfl⟩ := List.mem_map.mp hitem
    simp only [charLiteral, List.forall_mem_cons]
    exact ⟨rfl, h c hc, rfl, List.forall_mem_nil _⟩
  have hchars : ∀ c ∈ literalLine cs, Listing.isPrintable c = true := by
    simp only [literalLine, dataLine, List.forall_mem_append, List.forall_mem_cons]
    exact ⟨⟨rfl, rfl, List.forall_mem_nil _⟩, rfl, hliterals⟩
  have hlines : lines (join ['\n'] [literalLine cs]) = [literalLine cs] :=
    lines_join rfl rfl (List.forall_mem_singleton.mpr ⟨List.cons_ne_nil _ _, hchars⟩)
  rwa [join_singleton] at hlines

/-- What is assembled from a list of literals are the items that are left of it. -/
theorem assemble_literalLine_eq {cs : List Char} (hne : cs ≠ [])
    (hprintable : ∀ c ∈ cs, Listing.isPrintable c = true) (base : UInt16) (overflow : Overflow) :
    assemble (literalLine cs) base overflow =
      if base.toNat + (splitItems (keptItems false cs)).length ≤ Draft.addressLimit then
        (listBytes overflow [] .immediate
          ((splitItems (keptItems false cs)).map fun item => .term (Term.ofText item))).mapError
            (⟨1, ·⟩)
      else .error ⟨1, .pastLastAddress⟩ := by
  have hitems := keptItems_ne_nil false hne
  have hline := sourceLine_dataLine hitems quoted_of_mem_keptItems (stripComment_literalLine cs)
  have hstatement := statement_dataLine hitems quoted_of_mem_keptItems quoted_of_mem_splitItems
  rw [assemble_line (lines_literalLine hprintable) hline (List.cons_ne_nil _ _) hstatement,
    List.length_map]

/-- Printable characters are assembled from their literals to their codes exactly if they can be
listed; otherwise the line is refused. -/
theorem assemble_literalLine {cs : List Char} (base : UInt16) (hne : cs ≠ [])
    (hprintable : ∀ c ∈ cs, Listing.isPrintable c = true)
    (hfit : base.toNat + cs.length ≤ Draft.addressLimit) :
    (IsListable cs → ∀ overflow,
      assemble (literalLine cs) base overflow = .ok (cs.map fun c => UInt8.ofNat c.toNat)) ∧
    (¬ IsListable cs →
      ∃ problem, ∀ overflow, assemble (literalLine cs) base overflow = .error ⟨1, problem⟩) := by
  simp only [assemble_literalLine_eq hne hprintable]
  constructor
  · intro hlistable overflow
    obtain ⟨hcomma, hkept⟩ := isListable_iff.mp hlistable
    have hsmall : ∀ c ∈ cs, c.toNat < 128 := by
      intro c hc
      have hc := hprintable c hc
      simp only [Listing.isPrintable, Bool.and_eq_true, decide_eq_true_eq] at hc
      omega
    have hterms : ((cs.map charLiteral).map fun item => Expression.term (Term.ofText item)) =
        cs.map fun c => literal c.toNat := by
      rw [List.map_map]
      apply List.map_congr_left
      intro c hc
      rw [Function.comp_apply, term_charLiteral (hsmall c hc), literal]
    rw [hkept, splitItems_map_charLiteral hcomma, List.length_map, if_pos hfit, hterms,
      listBytes_characters overflow [] hsmall]
    rfl
  · intro hlistable
    obtain ⟨problem, hbytes⟩ :=
      exists_listBytes_error [] (mem_splitItems_of_not_isListable hlistable)
    split
    · exact ⟨problem, fun overflow => by rw [hbytes]; rfl⟩
    · exact ⟨.pastLastAddress, fun _ => rfl⟩

/-- Characters with a meaning of their own in a source line. The second quote closes what the first
one has left open, so the semicolon behind it is listed like the one in front. -/
def marks : List Char := [';', '\'', ':', ' ', '\'', ';', '+', '-']

theorem assemble_literalLine_marks :
    marks ≠ [] ∧ (∀ c ∈ marks, Listing.isPrintable c = true) ∧
    (0xFFF8 : UInt16).toNat + marks.length ≤ Draft.addressLimit ∧ IsListable marks ∧
    assemble (literalLine marks) 0xFFF8 =
      .ok [0x3B, 0x27, 0x3A, 0x20, 0x27, 0x3B, 0x2B, 0x2D] := by
  have hne : marks ≠ [] := by decide
  have hprintable : ∀ c ∈ marks, Listing.isPrintable c = true := List.all_eq_true.mp rfl
  have hfit : (0xFFF8 : UInt16).toNat + marks.length ≤ Draft.addressLimit := by decide
  have hlistable : IsListable marks := by decide
  exact ⟨hne, hprintable, hfit, hlistable,
    (assemble_literalLine 0xFFF8 hne hprintable hfit).1 hlistable .wraps⟩

/-- The literal of a comma is refused, and so is that of a semicolon behind that of a quote. -/
theorem comma_literal_refused :
    assemble "DB ','".toList 0 = .error ⟨1, .invalidNumber ['\'']⟩ ∧
    assemble "DB ''', ';'".toList 0 = .error ⟨1, .invalidNumber ['\'']⟩ := by
  have hcomma : "DB ','".toList = literalLine [','] := by decide
  have hsemicolon : "DB ''', ';'".toList = literalLine ['\'', ';'] := by decide
  rw [hcomma, hsemicolon,
    assemble_literalLine_eq (List.cons_ne_nil _ _) (List.all_eq_true.mp rfl),
    assemble_literalLine_eq (List.cons_ne_nil _ _) (List.all_eq_true.mp rfl)]
  exact ⟨rfl, rfl⟩

end Accumulator.Assembly
