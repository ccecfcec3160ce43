import Accumulator.Proofs.Assembly.Sources
import Accumulator.Proofs.Results

/-!
# Where statements are placed

A line that is accepted defines its label, if it has one, at the current location, and places its
statement, if it has one, there. So the placed statements are those of the source in order and
follow each other without a gap, and a label has the address of the statement that comes next.
-/

namespace Accumulator.Assembly

/-! ## Labels that are kept -/

/-- Every label of a table has the same address in a later one. -/
def Symbols.KeptBy (symbols later : Symbols) : Prop :=
  ∀ name address, symbols.lookup name = some address → later.lookup name = some address

variable {overflow : Overflow} {symbols later : Symbols}

theorem Symbols.KeptBy.refl (symbols : Symbols) : symbols.KeptBy symbols :=
  fun _ _ h => h

theorem Symbols.KeptBy.trans {last : Symbols} (h : symbols.KeptBy later) (h' : later.KeptBy last) :
    symbols.KeptBy last := by
  intro name address hfind
  exact h' name address (h name address hfind)

theorem Symbols.keptBy_cons {name : Text} (fresh : symbols.lookup name = none) (address : Nat) :
    symbols.KeptBy ((name, address) :: symbols) := by
  intro other found hfind
  have hne : (other == name) = false := by
    apply beq_eq_false_iff_ne.mpr
    rintro rfl
    rw [fresh] at hfind
    cases hfind
  rw [List.lookup_cons, hne]
  exact hfind

theorem Term.eval_of_keptBy (hkept : symbols.KeptBy later) {t : Term} {value : Int}
    (h : t.eval symbols = .ok value) : t.eval later = .ok value := by
  cases t with
  | number _ => exact h
  | missing | malformed _ => cases h
  | label name =>
      rw [Term.eval] at h ⊢
      cases hfind : symbols.find? name with
      | none => simp [hfind] at h
      | some address =>
          rw [hfind] at h
          have hlater : later.find? name = some address := hkept _ _ hfind
          rwa [hlater]

theorem Term.exists_of_eval_label {name : Text} {value : Int}
    (h : (Term.label name).eval symbols = .ok value) :
    ∃ address : Nat, symbols.lookup name.upper = some address ∧ value = address := by
  rw [Term.eval, Symbols.find?] at h
  cases hfind : symbols.lookup name.upper with
  | none => simp [hfind] at h
  | some address =>
      rw [hfind] at h
      exact ⟨address, rfl, (Except.ok.inj h).symm⟩

theorem Expression.exists_of_eval_sum {left : Expression} {sign : Sign} {right : Term} {value : Int}
    (h : (Expression.sum left sign right).eval overflow symbols = .ok value) :
    ∃ a b, left.eval overflow symbols = .ok a ∧ right.eval symbols = .ok b ∧
      sign.apply overflow a b = .ok value := by
  rw [Expression.eval] at h
  cases hleft : left.eval overflow symbols with
  | error problem => simp [hleft] at h
  | ok a =>
      cases hright : right.eval symbols with
      | error problem => simp [hleft, hright] at h
      | ok b =>
          simp only [hleft, hright] at h
          exact ⟨a, b, rfl, rfl, h⟩

/-- An expression that has a value keeps it while labels are added. -/
theorem Expression.eval_of_keptBy (hkept : symbols.KeptBy later) {e : Expression} {value : Int}
    (h : e.eval overflow symbols = .ok value) : e.eval overflow later = .ok value := by
  induction e generalizing value with
  | term t => exact Term.eval_of_keptBy hkept h
  | sum left sign right ih =>
      obtain ⟨a, b, hleft, hright, happly⟩ := exists_of_eval_sum h
      simp only [Expression.eval, ih hleft, Term.eval_of_keptBy hkept hright, happly]

/-! ## Statements and their sizes -/

/-- An instruction has an operand exactly if its opcode takes one. -/
def Statement.WellFormed : Statement → Prop
  | .instruction opcode operand => operand = none ↔ opcode.form = .none
  | _ => True

/-- The ways to read a statement from its first word and what follows it. -/
inductive Statement.ReadFrom (word : Text) : Option Text → Statement → Prop
  | origin {text : Text} (name : word.upper = ['O', 'R', 'G']) :
      ReadFrom word (some text) (.origin (Expression.ofText text))
  | bytes {operand : Option Text} {items : List Expression}
      (name : word.upper = ['D', 'B'] ∨ word.upper = ['B', 'Y', 'T', 'E'])
      (read : readItems ['D', 'B'] operand = .ok items) : ReadFrom word operand (.bytes items)
  | words {operand : Option Text} {items : List Expression}
      (name : word.upper = ['D', 'W'] ∨ word.upper = ['W', 'O', 'R', 'D'])
      (read : readItems ['D', 'W'] operand = .ok items) : ReadFrom word operand (.words items)
  | bare {opcode : Opcode} (name : Opcode.ofName? word = some opcode)
      (form : opcode.form = .none) : ReadFrom word none (.instruction opcode none)
  | full {opcode : Opcode} {text : Text} (name : Opcode.ofName? word = some opcode)
      (form : opcode.form ≠ .none) :
      ReadFrom word (some text) (.instruction opcode (some (Expression.ofText text)))

theorem readFrom_of_readInstruction {word : Text} {operand : Option Text} {statement : Statement}
    (h : readInstruction word operand = .ok statement) : statement.ReadFrom word operand := by
  rw [readInstruction] at h
  cases hname : Opcode.ofName? word with
  | none => simp [hname] at h
  | some opcode =>
      simp only [hname] at h
      split at h
      case h_1 => cases h
      case h_2 hform =>
        obtain rfl := Except.ok.inj h
        exact .bare hname hform
      case h_3 => cases h
      case h_4 hform =>
        obtain rfl := Except.ok.inj h
        exact .full hname hform

theorem exists_readFrom_of_ofText {body : Text} {statement : Statement}
    (h : Statement.ofText body = .ok statement) :
    ∃ word operand, cutOperand body = (word, operand) ∧ statement.ReadFrom word operand := by
  rw [Statement.ofText] at h
  cases hparts : cutOperand body with
  | mk word operand =>
      refine ⟨word, operand, rfl, ?_⟩
      simp only [hparts] at h
      split at h
      · rename_i hname
        split at h
        · cases h
        · obtain rfl := Except.ok.inj h
          exact .origin hname
      · split at h
        · rename_i hname
          obtain ⟨items, hitems, rfl⟩ := exists_of_map_ok h
          exact .bytes hname hitems
        · split at h
          · rename_i hname
            obtain ⟨items, hitems, rfl⟩ := exists_of_map_ok h
            exact .words hname hitems
          · exact readFrom_of_readInstruction h

theorem wellFormed_of_ofText {body : Text} {statement : Statement}
    (h : Statement.ofText body = .ok statement) : statement.WellFormed := by
  obtain ⟨word, operand, _, hread⟩ := exists_readFrom_of_ofText h
  cases hread with
  | origin | bytes | words => trivial
  | bare _ form => simp [Statement.WellFormed, form]
  | full _ form => simpa [Statement.WellFormed] using form

/-- A statement at an address takes some room: an origin the room up to its target, any other
statement its own size. -/
def Statement.Takes (overflow : Overflow) (symbols : Symbols) (address room : Nat) :
    Statement → Prop
  | .origin target => target.eval overflow symbols = .ok ((address + room : Nat) : Int)
  | statement => room = statement.size

theorem Statement.Takes.keptBy {statement : Statement} {address room : Nat}
    (h : statement.Takes overflow symbols address room) (hkept : symbols.KeptBy later) :
    statement.Takes overflow later address room := by
  cases statement with
  | instruction _ _ | bytes _ | words _ => exact h
  | origin target => exact Expression.eval_of_keptBy hkept h

/-- A placed statement is one that can be read, and has the room that it takes. -/
structure Placed.Sized (overflow : Overflow) (symbols : Symbols) (p : Placed) : Prop where
  wellFormed : p.statement.WellFormed
  takes : p.statement.Takes overflow symbols p.address p.size

/-- Statements follow each other without a gap, from one address to another. -/
inductive Contiguous : Nat → List Placed → Nat → Prop
  | nil (address : Nat) : Contiguous address [] address
  | cons {p : Placed} {rest : List Placed} {stop : Nat}
      (h : Contiguous (p.address + p.size) rest stop) : Contiguous p.address (p :: rest) stop

theorem Contiguous.singleton (p : Placed) : Contiguous p.address [p] (p.address + p.size) :=
  .cons (.nil _)

theorem Contiguous.append {first middle last : Nat} {before after : List Placed}
    (hbefore : Contiguous first before middle) (hafter : Contiguous middle after last) :
    Contiguous first (before ++ after) last := by
  induction hbefore with
  | nil => exact hafter
  | cons _ ih => exact .cons (ih hafter)

theorem Contiguous.exists_middle {first last : Nat} {before after : List Placed}
    (h : Contiguous first (before ++ after) last) :
    ∃ middle, Contiguous first before middle ∧ Contiguous middle after last := by
  induction before generalizing first with
  | nil => exact ⟨first, .nil first, h⟩
  | cons p rest ih =>
      cases h with
      | cons h =>
          obtain ⟨middle, hbefore, hafter⟩ := ih h
          exact ⟨middle, .cons hbefore, hafter⟩

/-! ## Lines and their statements -/

/-- Whether a numbered line has a statement. -/
def hasStatement (line : Text × Nat) : Bool := !(SourceLine.ofText line.1).body.isEmpty

/-- A placed statement is that of a numbered line. -/
structure Stems (p : Placed) (line : Text × Nat) : Prop where
  line_eq : p.line = line.2
  read : Statement.ofText (SourceLine.ofText line.1).body = .ok p.statement

namespace Draft

variable {draft next : Draft} {base line : Nat} {text : Text}

theorem takes_of_sizeOf {statement : Statement} {size : Nat}
    (h : draft.sizeOf overflow statement = .ok size) :
    statement.Takes overflow draft.symbols draft.location size := by
  cases statement with
  | instruction _ _ | bytes _ | words _ => exact (Except.ok.inj h).symm
  | origin target =>
      rw [sizeOf] at h
      cases heval : target.eval overflow draft.symbols with
      | error problem => simp [heval] at h
      | ok value =>
          simp only [heval] at h
          split at h
          · cases h
          · split at h
            · cases h
            · obtain rfl := Except.ok.inj h
              have hvalue : ((draft.location + (value.toNat - draft.location) : Nat) : Int) =
                  value := by omega
              rw [Statement.Takes, heval, hvalue]

/-! ## What a line does -/

/-- A label, if there is one, is new and gets the current location. -/
inductive Defines (draft : Draft) : Option Text → Draft → Prop
  | unlabelled : Defines draft none draft
  | label {label : Text} (fresh : draft.symbols.find? label = none) :
      Defines draft (some label)
        { draft with symbols := (label.upper, draft.location) :: draft.symbols }

/-- A statement, if there is one, is placed at the current location. -/
inductive Places (overflow : Overflow) (draft : Draft) (line : Nat) : Text → Draft → Prop
  | blank : Places overflow draft line [] draft
  | statement {body : Text} {statement : Statement} {size : Nat} (ne_nil : body ≠ [])
      (read : Statement.ofText body = .ok statement)
      (room : draft.sizeOf overflow statement = .ok size)
      (fits : draft.location + size ≤ addressLimit) :
      Places overflow draft line body (extend draft line statement size)

theorem defines_of_ok {label : Option Text} (h : draft.defineLabel label = .ok next) :
    draft.Defines label next := by
  cases label with
  | none =>
      obtain rfl := Except.ok.inj h
      exact .unlabelled
  | some label =>
      rw [defineLabel, define] at h
      split at h
      · cases h
      · split at h
        · cases h
        · rename_i hfresh
          obtain rfl := Except.ok.inj h
          exact .label (Option.not_isSome_iff_eq_none.mp hfresh)

theorem places_of_ok {body : Text} (h : draft.placeBody overflow line body = .ok next) :
    draft.Places overflow line body next := by
  rw [placeBody] at h
  split at h
  · rename_i hempty
    obtain rfl := Except.ok.inj h
    rw [List.isEmpty_iff.mp hempty]
    exact .blank
  · rename_i hempty
    cases hread : Statement.ofText body with
    | error problem => simp [hread] at h
    | ok statement =>
        simp only [hread, place] at h
        cases hroom : draft.sizeOf overflow statement with
        | error problem => simp [hroom] at h
        | ok size =>
            simp only [hroom] at h
            split at h
            · cases h
            · rename_i hfits
              obtain rfl := Except.ok.inj h
              exact .statement (mt List.isEmpty_iff.mpr hempty) hread hroom (Nat.le_of_not_lt hfits)

theorem exists_of_readLine_ok (h : draft.readLine overflow line text = .ok next) :
    ∃ labelled, draft.Defines (SourceLine.ofText text).label labelled ∧
      labelled.Places overflow line (SourceLine.ofText text).body next := by
  rw [readLine] at h
  cases hlabel : draft.defineLabel (SourceLine.ofText text).label with
  | error problem => simp [hlabel] at h
  | ok labelled =>
      simp only [hlabel] at h
      cases hbody : labelled.placeBody overflow line (SourceLine.ofText text).body with
      | error problem => simp [hbody, Except.mapError] at h
      | ok placed =>
          simp only [hbody, Except.mapError, Except.ok.injEq] at h
          exact ⟨labelled, defines_of_ok hlabel, h ▸ places_of_ok hbody⟩

/-! ## What is kept -/

/-- A later draft has all labels and all placed statements of an earlier one. -/
structure GrowsTo (draft next : Draft) : Prop where
  symbols : draft.symbols.KeptBy next.symbols
  placed : draft.placed.toList <+: next.placed.toList

theorem GrowsTo.refl (draft : Draft) : draft.GrowsTo draft :=
  ⟨.refl draft.symbols, List.prefix_rfl⟩

theorem GrowsTo.trans {last : Draft} (h : draft.GrowsTo next) (h' : next.GrowsTo last) :
    draft.GrowsTo last :=
  ⟨h.symbols.trans h'.symbols, h.placed.trans h'.placed⟩

theorem Defines.growsTo {label : Option Text} (h : draft.Defines label next) :
    draft.GrowsTo next := by
  cases h with
  | unlabelled => exact .refl draft
  | label fresh => exact ⟨Symbols.keptBy_cons fresh draft.location, List.prefix_rfl⟩

theorem Places.growsTo {body : Text} (h : draft.Places overflow line body next) :
    draft.GrowsTo next := by
  cases h with
  | blank => exact .refl draft
  | statement ne_nil read room fits =>
      refine ⟨.refl draft.symbols, ?_⟩
      rw [extend, Array.toList_push]
      exact List.prefix_append ..

theorem growsTo_of_readLine (h : draft.readLine overflow line text = .ok next) :
    draft.GrowsTo next := by
  obtain ⟨labelled, hdefines, hplaces⟩ := exists_of_readLine_ok h
  exact hdefines.growsTo.trans hplaces.growsTo

/-! ## The invariant -/

/-- The placed statements fill the room from an address up to the current location. -/
structure Laid (overflow : Overflow) (base : Nat) (draft : Draft) : Prop where
  contiguous : Contiguous base draft.placed.toList draft.location
  location_le : draft.location ≤ addressLimit
  sized : ∀ p ∈ draft.placed.toList, p.Sized overflow draft.symbols

theorem laid_start (base : UInt16) : (start base).Laid overflow base.toNat where
  contiguous := .nil base.toNat
  location_le := Nat.le_of_lt base.toNat_lt
  sized := List.forall_mem_nil _

theorem Laid.defines {label : Option Text} (h : draft.Laid overflow base)
    (hdefines : draft.Defines label next) : next.Laid overflow base := by
  have hkept := hdefines.growsTo.symbols
  cases hdefines with
  | unlabelled => exact h
  | label fresh =>
      refine ⟨h.contiguous, h.location_le, ?_⟩
      intro p hp
      obtain ⟨hformed, htakes⟩ := h.sized p hp
      exact ⟨hformed, htakes.keptBy hkept⟩

theorem Laid.places {body : Text} (h : draft.Laid overflow base)
    (hplaces : draft.Places overflow line body next) :
    next.Laid overflow base := by
  cases hplaces with
  | blank => exact h
  | @statement body statement size ne_nil read room fits =>
      have hplaced : (extend draft line statement size).placed.toList =
          draft.placed.toList ++ [⟨line, draft.location, size, statement⟩] :=
        Array.toList_push ..
      constructor
      · rw [hplaced]
        exact h.contiguous.append (.singleton ⟨line, draft.location, size, statement⟩)
      · exact fits
      · rw [hplaced, List.forall_mem_append, List.forall_mem_singleton]
        exact ⟨h.sized, wellFormed_of_ofText read, takes_of_sizeOf room⟩

theorem Laid.readLine (h : draft.Laid overflow base)
    (hread : draft.readLine overflow line text = .ok next) :
    next.Laid overflow base := by
  obtain ⟨labelled, hdefines, hplaces⟩ := exists_of_readLine_ok hread
  exact (h.defines hdefines).places hplaces

/-! ## Several lines -/

variable {lines rest : List (Text × Nat)}

theorem exists_of_readLines_cons (h : draft.readLines overflow ((text, line) :: rest) = .ok next) :
    ∃ middle, draft.readLine overflow line text = .ok middle ∧
      middle.readLines overflow rest = .ok next := by
  rw [readLines] at h
  cases hread : draft.readLine overflow line text with
  | error e => simp [hread] at h
  | ok middle =>
      simp only [hread] at h
      exact ⟨middle, rfl, h⟩

theorem exists_of_readLines_append (h : draft.readLines overflow (lines ++ rest) = .ok next) :
    ∃ middle, draft.readLines overflow lines = .ok middle ∧
      middle.readLines overflow rest = .ok next := by
  induction lines generalizing draft with
  | nil => exact ⟨draft, rfl, h⟩
  | cons head tail ih =>
      obtain ⟨first, hfirst, htail⟩ := exists_of_readLines_cons h
      obtain ⟨middle, hmiddle, hrest⟩ := ih htail
      refine ⟨middle, ?_, hrest⟩
      rw [readLines, hfirst]
      exact hmiddle

theorem growsTo_of_readLines (h : draft.readLines overflow lines = .ok next) :
    draft.GrowsTo next := by
  induction lines generalizing draft with
  | nil =>
      obtain rfl := Except.ok.inj h
      exact .refl draft
  | cons head tail ih =>
      obtain ⟨first, hfirst, htail⟩ := exists_of_readLines_cons h
      exact (growsTo_of_readLine hfirst).trans (ih htail)

theorem Laid.readLines (h : draft.Laid overflow base)
    (hread : draft.readLines overflow lines = .ok next) :
    next.Laid overflow base := by
  induction lines generalizing draft with
  | nil =>
      obtain rfl := Except.ok.inj hread
      exact h
  | cons head tail ih =>
      obtain ⟨first, hfirst, htail⟩ := exists_of_readLines_cons hread
      exact ih (h.readLine hfirst) htail

/-! ## The statements of a source -/

/-- What a line without a statement leaves alone. -/
structure SamePlace (draft next : Draft) : Prop where
  placed : next.placed = draft.placed
  location : next.location = draft.location

theorem Defines.samePlace {label : Option Text} (h : draft.Defines label next) :
    draft.SamePlace next := by
  cases h with
  | unlabelled => exact ⟨rfl, rfl⟩
  | label fresh => exact ⟨rfl, rfl⟩

theorem samePlace_of_readLine (h : draft.readLine overflow line text = .ok next)
    (hnone : hasStatement (text, line) = false) : draft.SamePlace next := by
  obtain ⟨labelled, hdefines, hplaces⟩ := exists_of_readLine_ok h
  have hbody : (SourceLine.ofText text).body = [] := by
    simpa [hasStatement] using hnone
  rw [hbody] at hplaces
  cases hplaces with
  | blank => exact hdefines.samePlace
  | statement ne_nil => exact absurd rfl ne_nil

/-- A line with a statement places it at the current location. -/
theorem exists_placed_of_readLine (h : draft.readLine overflow line text = .ok next)
    (hsome : hasStatement (text, line) = true) :
    ∃ p, next.placed.toList = draft.placed.toList ++ [p] ∧ Stems p (text, line) ∧
      p.address = draft.location := by
  obtain ⟨labelled, hdefines, hplaces⟩ := exists_of_readLine_ok h
  have hsame := hdefines.samePlace
  have hbody : (SourceLine.ofText text).body ≠ [] := by
    simpa [hasStatement] using hsome
  -- the body has to be a variable for the cases of its placing
  generalize hread : (SourceLine.ofText text).body = body at hplaces hbody
  cases hplaces with
  | blank => exact absurd rfl hbody
  | @statement _ statement size _ read =>
      refine ⟨⟨line, labelled.location, size, statement⟩, ?_, ⟨rfl, ?_⟩, hsame.location⟩
      · rw [extend, Array.toList_push, hsame.placed]
      · rw [hread]
        exact read

/-- The statements that are placed while lines are read are those of the lines, in order. -/
theorem exists_added_of_readLines (h : draft.readLines overflow lines = .ok next) :
    ∃ added, next.placed.toList = draft.placed.toList ++ added ∧
      List.Forall₂ Stems added (lines.filter hasStatement) := by
  induction lines generalizing draft with
  | nil =>
      obtain rfl := Except.ok.inj h
      exact ⟨[], (List.append_nil _).symm, .nil⟩
  | cons head tail ih =>
      obtain ⟨first, hfirst, htail⟩ := exists_of_readLines_cons h
      obtain ⟨added, hadded, hstems⟩ := ih htail
      cases hhead : hasStatement head with
      | false =>
          have hsame := samePlace_of_readLine hfirst hhead
          refine ⟨added, ?_, ?_⟩
          · rw [hadded, hsame.placed]
          · rwa [List.filter_cons_of_neg (by simp [hhead])]
      | true =>
          obtain ⟨p, hp, hstem, _⟩ := exists_placed_of_readLine hfirst hhead
          refine ⟨p :: added, ?_, ?_⟩
          · rw [hadded, hp, List.append_assoc]
            rfl
          · rw [List.filter_cons_of_pos hhead]
            exact .cons hstem hstems

end Draft
end Accumulator.Assembly
