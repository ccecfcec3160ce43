import Accumulator.Proofs.Assembly.Passes
import Mathlib.Data.Int.ModEq

/-!
# The same source for another address

A source without origins in which labels only lead the operands that are addresses can be assembled
for any address. Its labels move along with that address, and nothing else depends on it: two
outputs of such a source have their label operands at the same places, these differ by the distance
between the addresses, and all other bytes are the same.
-/

namespace Accumulator.Assembly

/-! ## Sources that can be moved -/

/-- Whether a term names a label. -/
def Term.isLabel : Term → Bool
  | .label _ => true
  | _ => false

/-- Whether a label occurs in an expression. -/
def Expression.hasLabel : Expression → Bool
  | .term t => t.isLabel
  | .sum left _ right => left.hasLabel || right.isLabel

/-- Whether an expression is a label, or a label followed by terms that are none. -/
def Expression.labelLeads : Expression → Bool
  | .term t => t.isLabel
  | .sum left _ right => left.labelLeads && !right.isLabel

/-- An operand of a form can be moved if it has no label, or if it is an address that a label
leads. -/
def Expression.movable (e : Expression) (form : OperandForm) : Bool :=
  !e.hasLabel || (form == .absolute && e.labelLeads)

/-- A statement can be moved if its operands can. An origin cannot. -/
def Statement.movable : Statement → Bool
  | .instruction _ none => true
  | .instruction opcode (some e) => e.movable opcode.form
  | .bytes items => items.all (·.movable .immediate)
  | .words items => items.all (·.movable .absolute)
  | .origin _ => false

/-- The statement of a line, if it has one. -/
def statementOf (line : Text) : Option Statement :=
  (Statement.ofText (SourceLine.ofText line).body).toOption

/-- The statements of a source, in order. -/
def statements (source : Text) : List Statement := source.lines.filterMap statementOf

/-! ## Outputs that differ in addresses -/

/-- A part of the output: a byte that does not depend on a label, or the two bytes of an operand
that does. -/
inductive Field
  | byte
  | address (operand : Expression)
  deriving DecidableEq, Repr

/-- The fields of an operand of a form. -/
def operandFields (form : OperandForm) (e : Expression) : List Field :=
  if e.hasLabel then [.address e] else List.replicate form.size .byte

/-- The fields of a statement. -/
def Statement.fields : Statement → List Field
  | .instruction _ none => [.byte]
  | .instruction opcode (some e) => .byte :: operandFields opcode.form e
  | .bytes items => items.flatMap (operandFields .immediate)
  | .words items => items.flatMap (operandFields .absolute)
  | .origin _ => []

/-- Two outputs consist of the same fields. A byte is the same in both; an address holds the value
that its operand has by the symbols of either output, and the two values differ by a distance. -/
inductive Moved (overflow : Overflow) (symbols symbols' : Symbols) (d : Int) :
    List Field → List UInt8 → List UInt8 → Prop
  | nil : Moved overflow symbols symbols' d [] [] []
  | byte {fields : List Field} {x y : List UInt8} (b : UInt8)
      (h : Moved overflow symbols symbols' d fields x y) :
      Moved overflow symbols symbols' d (.byte :: fields) (b :: x) (b :: y)
  | address {fields : List Field} {x y : List UInt8} {e : Expression} {w w' : UInt16}
      (value : e.eval overflow symbols = .ok (w.toNat : Int))
      (value' : e.eval overflow symbols' = .ok (w'.toNat : Int))
      (differ : (w'.toNat : Int) = w.toNat + d)
      (h : Moved overflow symbols symbols' d fields x y) :
      Moved overflow symbols symbols' d (.address e :: fields) (wordBytes w ++ x)
        (wordBytes w' ++ y)

variable {overflow : Overflow} {symbols symbols' : Symbols} {d : Int} {fields others : List Field}
  {x y x' y' bytes bytes' : List UInt8}

namespace Moved

theorem length_eq (h : Moved overflow symbols symbols' d fields x y) : x.length = y.length := by
  induction h with
  | nil => rfl
  | byte b _ ih => rw [List.length_cons, List.length_cons, ih]
  | address _ _ _ _ ih => rw [List.length_append, List.length_append, ih, wordBytes, wordBytes]; rfl

theorem append (h : Moved overflow symbols symbols' d fields x y)
    (h' : Moved overflow symbols symbols' d others x' y') :
    Moved overflow symbols symbols' d (fields ++ others) (x ++ x') (y ++ y') := by
  induction h with
  | nil => exact h'
  | byte b _ ih => exact .byte b ih
  | address value value' differ _ ih =>
      rw [List.append_assoc, List.append_assoc]
      exact .address value value' differ ih

theorem same (bytes : List UInt8) :
    Moved overflow symbols symbols' d (List.replicate bytes.length .byte) bytes bytes := by
  induction bytes with
  | nil => exact .nil
  | cons b rest ih => exact .byte b ih

end Moved

/-! ## Labels -/

/-- Two lists of symbols have the same names, and their addresses differ by a distance. -/
def Symbols.MovedBy (d : Int) (symbols symbols' : Symbols) : Prop :=
  List.Forall₂ (fun entry entry' => entry'.1 = entry.1 ∧ (entry'.2 : Int) = entry.2 + d)
    symbols symbols'

theorem Symbols.MovedBy.lookup (h : Symbols.MovedBy d symbols symbols') {name : Text}
    {address address' : Nat} (hfind : symbols.lookup name = some address)
    (hfind' : symbols'.lookup name = some address') : (address' : Int) = address + d := by
  induction h with
  | nil => cases hfind
  | @cons entry entry' rest rest' hentry _ ih =>
      obtain ⟨hname, haddress⟩ := hentry
      rw [List.lookup_cons] at hfind hfind'
      rw [hname] at hfind'
      cases hfirst : name == entry.1 with
      | true =>
          simp only [hfirst, Option.some.injEq] at hfind hfind'
          rw [← hfind, ← hfind']
          exact haddress
      | false =>
          simp only [hfirst] at hfind hfind'
          exact ih hfind hfind'

theorem Term.eval_congr {t : Term} (h : t.isLabel = false) : t.eval symbols = t.eval symbols' := by
  cases t with
  | missing | number _ | malformed _ => rfl
  | label _ => cases h

/-- An expression without labels has the same value by all symbols. -/
theorem Expression.eval_congr {e : Expression} (h : e.hasLabel = false) :
    e.eval overflow symbols = e.eval overflow symbols' := by
  induction e with
  | term t => exact Term.eval_congr h
  | sum left sign right ih =>
      rw [hasLabel, Bool.or_eq_false_iff] at h
      rw [eval, eval, ih h.1, Term.eval_congr h.2]

theorem Sign.exact_modEq {a a' : Int} (h : a' ≡ a + d [ZMOD 0x10000000000000000]) (sign : Sign)
    (b : Int) :
    sign.exact a' b ≡ sign.exact a b + d [ZMOD 0x10000000000000000] := by
  cases sign with
  | plus =>
      have hsum := h.add_right b
      rwa [Int.add_right_comm] at hsum
  | minus =>
      have hdifference := h.sub_right b
      rwa [add_sub_right_comm] at hdifference

/-- What is kept of a sum is right up to multiples of `2 ^ 64`. -/
theorem Sign.modEq_of_apply {sign : Sign} {a b value : Int}
    (h : sign.apply overflow a b = .ok value) :
    value ≡ sign.exact a b [ZMOD 0x10000000000000000] := by
  rw [Overflow.eq_bmod_of_settle h]
  exact Int.bmod_emod

/-- An expression that a label leads moves by the distance that the labels move, up to multiples of
`2 ^ 64` where a sum on the way does not fit. -/
theorem Expression.eval_of_movedBy (hmoved : Symbols.MovedBy d symbols symbols') {e : Expression}
    (hleads : e.labelLeads = true) {value value' : Int} (h : e.eval overflow symbols = .ok value)
    (h' : e.eval overflow symbols' = .ok value') :
    value' ≡ value + d [ZMOD 0x10000000000000000] := by
  induction e generalizing value value' with
  | term t =>
      cases t with
      | missing | number _ | malformed _ => cases hleads
      | label name =>
          obtain ⟨address, hfind, rfl⟩ := Term.exists_of_eval_label h
          obtain ⟨address', hfind', rfl⟩ := Term.exists_of_eval_label h'
          rw [hmoved.lookup hfind hfind']
  | sum left sign right ih =>
      rw [labelLeads, Bool.and_eq_true, Bool.not_eq_true'] at hleads
      obtain ⟨a, b, ha, hb, happly⟩ := exists_of_eval_sum h
      obtain ⟨a', b', ha', hb', happly'⟩ := exists_of_eval_sum h'
      obtain rfl : b = b' := Except.ok.inj <|
        hb.symm.trans ((Term.eval_congr hleads.2).trans hb')
      have hexact := Sign.exact_modEq (ih hleads.1 ha ha') sign b
      calc
        value' ≡ sign.exact a' b [ZMOD 0x10000000000000000] := Sign.modEq_of_apply happly'
        _ ≡ sign.exact a b + d [ZMOD 0x10000000000000000] := hexact
        _ ≡ value + d [ZMOD 0x10000000000000000] := (Sign.modEq_of_apply happly).symm.add_right d

/-- Two words are too close together to differ by a multiple of `2 ^ 64`. -/
theorem eq_of_modEq_words {w w' : UInt16} (hd : -65536 < d ∧ d < 65536)
    (h : (w'.toNat : Int) ≡ w.toNat + d [ZMOD 0x10000000000000000]) :
    (w'.toNat : Int) = w.toNat + d := by
  have hw := w.toNat_lt
  have hw' := w'.toNat_lt
  simp only [Int.ModEq] at h
  omega

/-! ## Reading -/

namespace Draft

variable {draft draft' next next' : Draft} {line : Nat}

/-- Two drafts have the same names, and their addresses and locations differ by a distance. -/
structure MovedBy (d : Int) (draft draft' : Draft) : Prop where
  location : (draft'.location : Int) = draft.location + d
  symbols : Symbols.MovedBy d draft.symbols draft'.symbols

theorem movedBy_start (base base' : UInt16) :
    MovedBy ((base'.toNat : Int) - base.toNat) (start base) (start base') where
  location := by
    simp only [start]
    omega
  symbols := .nil

theorem MovedBy.defines {label : Option Text} (h : MovedBy d draft draft')
    (hdefines : draft.Defines label next) (hdefines' : draft'.Defines label next') :
    MovedBy d next next' := by
  cases hdefines with
  | unlabelled =>
      cases hdefines' with
      | unlabelled => exact h
  | label fresh =>
      cases hdefines' with
      | label fresh' => exact ⟨h.location, .cons ⟨rfl, h.location⟩ h.symbols⟩

theorem size_of_movable {statement : Statement} {size : Nat} (h : statement.movable = true)
    (room : draft.sizeOf overflow statement = .ok size) : statement.size = size := by
  cases statement with
  | instruction _ _ | bytes _ | words _ => exact Except.ok.inj room
  | origin _ => cases h

theorem MovedBy.places {body : Text} (h : MovedBy d draft draft')
    (hmovable : ∀ statement, Statement.ofText body = .ok statement → statement.movable = true)
    (hplaces : draft.Places overflow line body next)
    (hplaces' : draft'.Places overflow line body next') :
    MovedBy d next next' := by
  cases hplaces with
  | blank =>
      cases hplaces' with
      | blank => exact h
      | statement ne_nil _ _ _ => exact absurd rfl ne_nil
  | @statement _ statement size ne_nil read room fits =>
      cases hplaces' with
      | blank => exact absurd rfl ne_nil
      | @statement _ statement' size' _ read' room' fits' =>
          obtain rfl : statement = statement' := Except.ok.inj (read.symm.trans read')
          have hmoves := hmovable statement read
          have hsize : size = size' := (size_of_movable hmoves room).symm.trans
            (size_of_movable hmoves room')
          have hlocation := h.location
          refine ⟨?_, h.symbols⟩
          simp only [extend]
          omega

/-- Lines that can be moved lead from moved drafts to moved drafts. -/
theorem MovedBy.readLines {lines : List Text} (h : MovedBy d draft draft')
    (hmovable : ∀ statement ∈ lines.filterMap statementOf, statement.movable = true)
    (hread : draft.readLines overflow (lines.zipIdx line) = .ok next)
    (hread' : draft'.readLines overflow (lines.zipIdx line) = .ok next') :
    MovedBy d next next' := by
  induction lines generalizing draft draft' line with
  | nil =>
      obtain rfl := Except.ok.inj hread
      obtain rfl := Except.ok.inj hread'
      exact h
  | cons text rest ih =>
      obtain ⟨middle, htext, hrest⟩ := exists_of_readLines_cons hread
      obtain ⟨middle', htext', hrest'⟩ := exists_of_readLines_cons hread'
      obtain ⟨labelled, hdefines, hplaces⟩ := exists_of_readLine_ok htext
      obtain ⟨labelled', hdefines', hplaces'⟩ := exists_of_readLine_ok htext'
      refine ih ((h.defines hdefines hdefines').places ?_ hplaces hplaces') ?_ hrest hrest'
      · intro statement hstatement
        apply hmovable
        apply List.mem_filterMap.mpr
        refine ⟨text, List.mem_cons_self, ?_⟩
        rw [statementOf, hstatement]
        rfl
      · intro statement hstatement
        apply hmovable
        exact ((List.sublist_cons_self text rest).filterMap statementOf).subset hstatement

end Draft

/-- The placed statements are those of the lines that have one. -/
theorem statements_of_stems {placed : List Placed} {lines : List (Text × Nat)}
    (h : List.Forall₂ Stems placed (lines.filter hasStatement)) :
    placed.map Placed.statement = (lines.map Prod.fst).filterMap statementOf := by
  induction lines generalizing placed with
  | nil =>
      cases h with
      | nil => rfl
  | cons line rest ih =>
      rw [List.map_cons, List.filterMap_cons]
      cases hline : hasStatement line with
      | true =>
          rw [List.filter_cons_of_pos hline] at h
          cases h with
          | cons hstem hrest =>
              rw [List.map_cons, ih hrest, statementOf, hstem.read]
              rfl
      | false =>
          have hbody : (SourceLine.ofText line.1).body = [] := by
            simpa [hasStatement] using hline
          rw [List.filter_cons_of_neg (by simp [hline])] at h
          rw [ih h, statementOf, hbody]
          rfl

theorem Draft.statements_of_ofSource {source : Text} {base : UInt16} {draft : Draft}
    (h : Draft.ofSource overflow source base = .ok draft) :
    draft.placed.toList.map Placed.statement = statements source := by
  rw [statements_of_stems (Draft.stems_of_ofSource h), List.zipIdx_map_fst, statements]

/-! ## Writing -/

theorem moved_of_operandBytes (hd : -65536 < d ∧ d < 65536)
    (hmoved : Symbols.MovedBy d symbols symbols') {form : OperandForm} {e : Expression}
    (hmovable : e.movable form = true)
    (h : operandBytes overflow symbols e form = .ok bytes)
    (h' : operandBytes overflow symbols' e form = .ok bytes') :
    Moved overflow symbols symbols' d (operandFields form e) bytes bytes' := by
  rw [operandFields]
  cases hlabel : e.hasLabel with
  | false =>
      have hsame :
          operandBytes overflow symbols e form = operandBytes overflow symbols' e form := by
        cases form with
        | none => rfl
        | immediate | zeroPage | absolute =>
            rw [operandBytes, operandBytes, Expression.eval_congr hlabel]
      obtain rfl : bytes = bytes' := Except.ok.inj (h.symm.trans (hsame.trans h'))
      rw [← length_operandBytes h]
      exact .same bytes
  | true =>
      have habsolute : form = .absolute ∧ e.labelLeads = true := by
        simpa [Expression.movable, hlabel] using hmovable
      obtain ⟨rfl, hleads⟩ := habsolute
      obtain ⟨value, hvalue, hword⟩ := exists_of_bind_ok h
      obtain ⟨value', hvalue', hword'⟩ := exists_of_bind_ok h'
      obtain ⟨w, hw, rfl⟩ := exists_of_map_ok hword
      obtain ⟨w', hw', rfl⟩ := exists_of_map_ok hword'
      -- a word that stands for a value is that value, so the two words differ as the values do
      cases represents_of_wordOfValue hw with
      | same eq =>
          cases represents_of_wordOfValue hw' with
          | same eq' =>
              subst eq eq'
              have hdiffer :=
                eq_of_modEq_words hd (Expression.eval_of_movedBy hmoved hleads hvalue hvalue')
              have hfield := Moved.address hvalue hvalue' hdiffer .nil
              simpa using hfield

theorem moved_of_listBytes (hd : -65536 < d ∧ d < 65536)
    (hmoved : Symbols.MovedBy d symbols symbols') {form : OperandForm} {items : List Expression}
    (hmovable : ∀ e ∈ items, e.movable form = true)
    (h : listBytes overflow symbols form items = .ok bytes)
    (h' : listBytes overflow symbols' form items = .ok bytes') :
    Moved overflow symbols symbols' d (items.flatMap (operandFields form)) bytes bytes' := by
  obtain ⟨chunks, hchunks, rfl⟩ := exists_of_map_ok h
  obtain ⟨chunks', hchunks', rfl⟩ := exists_of_map_ok h'
  have hparts := forall₂_of_mapM hchunks
  have hparts' := forall₂_of_mapM hchunks'
  clear h h' hchunks hchunks'
  induction hparts generalizing chunks' with
  | nil =>
      cases hparts' with
      | nil => exact .nil
  | cons hfirst _ ih =>
      rw [List.forall_mem_cons] at hmovable
      cases hparts' with
      | cons hfirst' hrest' =>
          rw [List.flatMap_cons, List.flatten_cons, List.flatten_cons]
          exact (moved_of_operandBytes hd hmoved hmovable.1 hfirst hfirst').append
            (ih hmovable.2 _ hrest')

/-- The bytes of a statement for two addresses consist of the same fields. -/
theorem moved_of_bytes (hd : -65536 < d ∧ d < 65536)
    (hmoved : Symbols.MovedBy d symbols symbols') {p p' : Placed}
    (hsame : p.statement = p'.statement) (hmovable : p.statement.movable = true)
    (h : p.bytes overflow symbols = .ok bytes) (h' : p'.bytes overflow symbols' = .ok bytes') :
    Moved overflow symbols symbols' d p.statement.fields bytes bytes' := by
  obtain ⟨line, address, size, statement⟩ := p
  obtain ⟨line', address', size', statement'⟩ := p'
  obtain rfl : statement = statement' := hsame
  cases statement with
  | instruction opcode operand =>
      cases operand with
      | none =>
          obtain rfl := Except.ok.inj h
          obtain rfl := Except.ok.inj h'
          exact .byte opcode.code .nil
      | some e =>
          obtain ⟨stored, hstored, rfl⟩ := exists_of_map_ok h
          obtain ⟨stored', hstored', rfl⟩ := exists_of_map_ok h'
          exact .byte opcode.code (moved_of_operandBytes hd hmoved hmovable hstored hstored')
  | bytes items | words items =>
      exact moved_of_listBytes hd hmoved (List.all_eq_true.mp hmovable) h h'
  | origin target => cases hmovable

/-- So do the bytes of several statements. -/
theorem moved_of_emit (hd : -65536 < d ∧ d < 65536)
    (hmoved : Symbols.MovedBy d symbols symbols') {placed placed' : List Placed}
    (hsame : placed.map Placed.statement = placed'.map Placed.statement)
    (hmovable : ∀ statement ∈ placed.map Placed.statement, statement.movable = true)
    (h : emit overflow symbols placed = .ok x) (h' : emit overflow symbols' placed' = .ok y) :
    Moved overflow symbols symbols' d
      ((placed.map Placed.statement).flatMap Statement.fields) x y := by
  induction placed generalizing placed' x y with
  | nil =>
      obtain rfl := List.map_eq_nil_iff.mp hsame.symm
      obtain rfl := Except.ok.inj h
      obtain rfl := Except.ok.inj h'
      exact .nil
  | cons p rest ih =>
      obtain ⟨p', rest', rfl, hfirst, hrest⟩ := List.map_eq_cons_iff.mp hsame.symm
      obtain ⟨bytes, others, hbytes, hothers, rfl⟩ := exists_of_emit_cons h
      obtain ⟨bytes', others', hbytes', hothers', rfl⟩ := exists_of_emit_cons h'
      rw [List.map_cons, List.forall_mem_cons] at hmovable
      rw [List.map_cons, List.flatMap_cons]
      exact (moved_of_bytes hd hmoved hfirst.symm hmovable.1 hbytes hbytes').append
        (ih hrest.symm hmovable.2 hothers hothers')

/-! ## A source for two addresses -/

/-- A source without origins in which labels only lead addresses assembles for two addresses to
outputs of the same length. Where an operand has a label, each holds its value as a word, and the
two words differ by the distance of the addresses, without wrapping around. All other bytes are the
same. -/
theorem assemble_moved {source : Text} {base base' : UInt16}
    (hmovable : ∀ statement ∈ statements source, statement.movable = true)
    (hx : assemble source base overflow = .ok x) (hy : assemble source base' overflow = .ok y) :
    x.length = y.length ∧
      ∃ draft draft', Draft.ofSource overflow source base = .ok draft ∧
        Draft.ofSource overflow source base' = .ok draft' ∧
        Moved overflow draft.symbols draft'.symbols ((base'.toNat : Int) - base.toNat)
          ((statements source).flatMap Statement.fields) x y := by
  obtain ⟨draft, hdraft, hfinish⟩ := exists_of_assemble_ok hx
  obtain ⟨draft', hdraft', hfinish'⟩ := exists_of_assemble_ok hy
  have hplaced := Draft.statements_of_ofSource hdraft
  have hplaced' := Draft.statements_of_ofSource hdraft'
  have hsymbols := ((Draft.movedBy_start base base').readLines hmovable hdraft hdraft').symbols
  have hdistance : -65536 < (base'.toNat : Int) - base.toNat ∧
      (base'.toNat : Int) - base.toNat < 65536 := by
    have hbase := base.toNat_lt
    have hbase' := base'.toNat_lt
    omega
  have hmoved := moved_of_emit hdistance hsymbols (hplaced.trans hplaced'.symm)
    (hplaced ▸ hmovable) hfinish hfinish'
  rw [hplaced] at hmoved
  exact ⟨hmoved.length_eq, draft, draft', hdraft, hdraft', hmoved⟩

/-- A source with labels before and behind their definitions, and with numbers that stay. -/
def tables : Text := "START: JSR SUB+1\n DW start, 7-2\n LDA_I -2\nSUB: JMP START".toList

/-- The bytes of that source with its two labels at given words. -/
def tablesBytes (start sub : UInt16) : List UInt8 :=
  0x42 :: wordBytes (sub + 1) ++ wordBytes start ++ [0x05, 0x00, 0x11, 0xFE, 0x41] ++
    wordBytes start

theorem assemble_moved_tables :
    (∀ statement ∈ statements tables, statement.movable = true) ∧
    assemble tables 0x10 = .ok (tablesBytes 0x10 0x19) ∧
    assemble tables 0xFFE0 = .ok (tablesBytes 0xFFE0 0xFFE9) ∧
    ∃ draft draft', Draft.ofSource .wraps tables 0x10 = .ok draft ∧
      Draft.ofSource .wraps tables 0xFFE0 = .ok draft' ∧
      Moved .wraps draft.symbols draft'.symbols 0xFFD0
        ((statements tables).flatMap Statement.fields)
        (tablesBytes 0x10 0x19) (tablesBytes 0xFFE0 0xFFE9) := by
  have hmovable : ∀ statement ∈ statements tables, statement.movable = true := by
    decide +kernel
  have hx : assemble tables 0x10 = .ok (tablesBytes 0x10 0x19) := by
    apply ok_of_toOption
    decide +kernel
  have hy : assemble tables 0xFFE0 = .ok (tablesBytes 0xFFE0 0xFFE9) := by
    apply ok_of_toOption
    decide +kernel
  exact ⟨hmovable, hx, hy, (assemble_moved hmovable hx hy).2⟩

end Accumulator.Assembly
