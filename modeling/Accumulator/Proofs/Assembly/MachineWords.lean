import Accumulator.Proofs.Assembly.Builds
import Accumulator.Proofs.Assembly.Semicolons
import Accumulator.Proofs.Assembly.UpperStatements

/-!
# Machine words

The numbers of the assembler stay in machine words. The size of a statement is added to the current
location before the sum is compared with the end of the address space; both and their sum are
numbers of 32 bits, since a statement takes at most two bytes for each character of its line, and
only a line of about two billion characters could need more. The value of an expression is a signed
number of 64 bits, and so is every value that an error names.
-/

namespace Accumulator

theorem OperandForm.size_le (form : OperandForm) : form.size ≤ 2 := by
  cases form <;> decide

namespace Assembly

open Text

variable {overflow : Overflow} {symbols : Symbols}

/-! ## Sizes in 32 bits -/

/-- A list has at most one item more than its text has characters. -/
theorem length_le_of_readItems {directive : Text} {operand : Option Text} {bound : Nat}
    {items : List Expression} (hoperand : ∀ text ∈ operand, text.length ≤ bound)
    (h : readItems directive operand = .ok items) : items.length ≤ bound + 1 := by
  cases operand with
  | none => cases h
  | some text =>
      have htext := hoperand text rfl
      have hpieces := length_pieces_le (· == ',') text
      simp only [readItems] at h
      split at h
      · cases h
      · obtain rfl := Except.ok.inj h
        simp only [List.length_map]
        omega

/-- A statement takes at most two bytes for each character of its text, and three more. -/
theorem Statement.size_le_of_ofText {body : Text} {statement : Statement}
    (h : Statement.ofText body = .ok statement) : statement.size ≤ 2 * body.length + 3 := by
  obtain ⟨word, operand, hparts, hread⟩ := exists_readFrom_of_ofText h
  have hoperand : ∀ text ∈ operand, text.length ≤ body.length :=
    fun text htext => (cutOperand_sublist hparts text htext).length_le
  cases hread with
  | origin name => exact Nat.zero_le _
  | bytes name read | words name read =>
      have hlength := length_le_of_readItems hoperand read
      rw [size]
      omega
  | @bare opcode | @full opcode =>
      have hform := opcode.form.size_le
      rw [size]
      omega

/-- Wherever the reading of a source stands, the sum of the location and the size of the next
statement is a 32-bit number. -/
theorem Draft.location_add_size_lt {source text : Text} {base : UInt16} {draft : Draft}
    {line : Nat} {before after : List (Text × Nat)} {statement : Statement}
    (hsource : source.length ≤ 2 ^ 31 - 2 ^ 16)
    (hlines : source.lines.zipIdx 1 = before ++ (text, line) :: after)
    (hbefore : (start base).readLines overflow before = .ok draft)
    (hread : Statement.ofText (SourceLine.ofText text).body = .ok statement) :
    draft.location + statement.size < 2 ^ 32 := by
  have hlocation : draft.location ≤ addressLimit :=
    ((laid_start base).readLines hbefore).location_le
  have hsize : statement.size ≤ 2 * (SourceLine.ofText text).body.length + 3 :=
    Statement.size_le_of_ofText hread
  have htext : text ∈ source.lines := by
    have hmem : (text, line) ∈ source.lines.zipIdx 1 := by
      rw [hlines]
      exact List.mem_append_right _ List.mem_cons_self
    exact List.fst_mem_of_mem_zipIdx hmem
  have hbody : (SourceLine.ofText text).body.length ≤ source.length :=
    ((body_sublist text).trans (sublist_of_mem_lines htext)).length_le
  have hlimit : addressLimit = 2 ^ 16 := rfl
  omega

/-! ## Values in 64 bits -/

theorem lt_of_magnitude? {text : Text} {n : Nat} (h : magnitude? text = some n) :
    n < magnitudeBound := by
  have hdigits : ∀ {read : Option Nat}, read.filter (· < magnitudeBound) = some n →
      n < magnitudeBound :=
    fun hread => of_decide_eq_true (Option.filter_eq_some_iff.mp hread).2
  unfold magnitude? at h
  split at h
  case h_5 =>
    split at h
    · rename_i hchar
      obtain rfl := Option.some.inj h
      exact Nat.lt_trans hchar (by decide)
    · cases h
  all_goals exact hdigits h

theorem is64Bit_natCast {n : Nat} (h : n < magnitudeBound) : Is64Bit (n : Int) := by
  constructor <;> omega

theorem is64Bit_neg_natCast {n : Nat} (h : n < magnitudeBound) : Is64Bit (-(n : Int)) := by
  constructor <;> omega

theorem is64Bit_of_number? {text : Text} {v : Int} (h : number? text = some v) : Is64Bit v := by
  unfold number? at h
  split at h
  · rename_i rest
    cases hread : magnitude? rest with
    | none => simp [hread] at h
    | some n =>
        obtain rfl : -(n : Int) = v := by simpa [hread] using h
        exact is64Bit_neg_natCast (lt_of_magnitude? hread)
  · rename_i rest
    cases hread : (Numeral.read? 10 rest).filter (· < magnitudeBound) with
    | none => simp [hread] at h
    | some n =>
        obtain rfl : (n : Int) = v := by simpa [hread] using h
        exact is64Bit_natCast (of_decide_eq_true (Option.filter_eq_some_iff.mp hread).2)
  · cases hread : magnitude? text with
    | none => simp [hread] at h
    | some n =>
        obtain rfl : (n : Int) = v := by simpa [hread] using h
        exact is64Bit_natCast (lt_of_magnitude? hread)

/-- The labels have addresses in the address space, or the one behind it. -/
def Symbols.Bounded (symbols : Symbols) : Prop :=
  ∀ name address, symbols.lookup name = some address → address ≤ Draft.addressLimit

theorem Term.is64Bit_of_eval (hsymbols : symbols.Bounded) {text : Text} {v : Int}
    (h : (Term.ofText text).eval symbols = .ok v) : Is64Bit v := by
  rw [Term.ofText] at h
  split at h
  · cases h
  · split at h
    · rename_i hnumber
      obtain rfl := Except.ok.inj h
      exact is64Bit_of_number? hnumber
    · split at h
      · cases h
      · obtain ⟨address, hfind, rfl⟩ := Term.exists_of_eval_label h
        exact is64Bit_natCast (Nat.lt_of_le_of_lt (hsymbols _ _ hfind) (by decide))

/-- The value of an expression is a 64-bit number. -/
theorem Expression.is64Bit_of_eval (hsymbols : symbols.Bounded) {text : Text} {v : Int}
    (h : (Expression.ofText text).eval overflow symbols = .ok v) : Is64Bit v := by
  rw [Expression.ofText_eq] at h
  split at h
  · split at h
    · exact Term.is64Bit_of_eval hsymbols h
    · obtain ⟨a, b, _, _, happly⟩ := exists_of_eval_sum h
      exact Overflow.is64Bit_of_settle happly
  · exact Term.is64Bit_of_eval hsymbols h

/-! ## Values that errors name -/

/-- An operand as it is read from a text. -/
def Expression.IsRead (e : Expression) : Prop := ∃ text, e = Expression.ofText text

theorem isRead_of_readItems {directive : Text} {operand : Option Text} {items : List Expression}
    (h : readItems directive operand = .ok items) : ∀ e ∈ items, e.IsRead := by
  cases operand with
  | none => cases h
  | some text =>
      simp only [readItems] at h
      split at h
      · cases h
      · obtain rfl := Except.ok.inj h
        intro e he
        obtain ⟨item, _, rfl⟩ := List.mem_map.mp he
        exact ⟨item, rfl⟩

theorem isRead_of_ofText {body : Text} {statement : Statement}
    (h : Statement.ofText body = .ok statement) : ∀ e ∈ statement.operands, e.IsRead := by
  obtain ⟨word, operand, _, hread⟩ := exists_readFrom_of_ofText h
  cases hread with
  | origin | full => exact List.forall_mem_singleton.mpr ⟨_, rfl⟩
  | bytes name read | words name read => exact isRead_of_readItems read
  | bare => exact List.forall_mem_nil _

/-- The value that a problem is about, if it is about one, is a 64-bit number. -/
def Problem.Names64Bit (problem : Problem) : Prop :=
  ∀ v, problem = .outOfRange v → Is64Bit v

theorem Problem.names64Bit_outOfRange {v : Int} (h : Is64Bit v) :
    (outOfRange v).Names64Bit := by
  rintro _ ⟨⟩
  exact h

theorem Problem.names64Bit_of_not_computed {problem : Problem} (h : ¬ problem.Computed) :
    problem.Names64Bit := by
  rintro v rfl
  exact absurd trivial h

theorem Term.failsBy_eval (symbols : Symbols) (t : Term) :
    FailsBy Problem.Names64Bit (t.eval symbols) := by
  cases t with
  | missing | malformed _ => exact .error (Problem.names64Bit_of_not_computed id)
  | number value => exact .ok value
  | label name =>
      rw [eval]
      split
      · exact .ok _
      · exact .error (Problem.names64Bit_of_not_computed id)

theorem Expression.failsBy_eval (overflow : Overflow) (symbols : Symbols) (e : Expression) :
    FailsBy Problem.Names64Bit (e.eval overflow symbols) := by
  induction e with
  | term t => exact t.failsBy_eval symbols
  | sum left sign right ih =>
      rw [eval_sum]
      refine ih.bind fun a _ => (right.failsBy_eval symbols).bind fun b _ => ?_
      rw [Sign.apply, Overflow.settle.eq_def]
      split
      · split
        · exact .ok _
        · exact .error (by rintro v ⟨⟩)
      · exact .ok _

theorem failsBy_value {α : Type} (hsymbols : symbols.Bounded) {e : Expression} (he : e.IsRead)
    {use : Int → Except Problem α}
    (huse : ∀ v, Is64Bit v → FailsBy Problem.Names64Bit (use v)) :
    FailsBy Problem.Names64Bit ((e.eval overflow symbols).bind use) := by
  obtain ⟨text, rfl⟩ := he
  exact (Expression.failsBy_eval overflow symbols _).bind fun v hv =>
    huse v (Expression.is64Bit_of_eval hsymbols hv)

theorem failsBy_guard {α : Type} {a : α} {v : Int} (h : Is64Bit v) (c : Prop) [Decidable c] :
    FailsBy Problem.Names64Bit (if c then .ok a else .error (.outOfRange v)) := by
  split
  · exact .ok a
  · exact .error (Problem.names64Bit_outOfRange h)

theorem failsBy_operandBytes (hsymbols : symbols.Bounded) {e : Expression} (he : e.IsRead)
    (form : OperandForm) : FailsBy Problem.Names64Bit (operandBytes overflow symbols e form) := by
  cases form with
  | none => exact .ok []
  | immediate => exact failsBy_value hsymbols he fun v hv => .map _ (failsBy_guard hv _)
  | zeroPage => exact failsBy_value hsymbols he fun v hv => .map _ (failsBy_guard hv _)
  | absolute => exact failsBy_value hsymbols he fun v hv => .map _ (failsBy_guard hv _)

theorem Placed.failsBy_bytes (hsymbols : symbols.Bounded) {p : Placed}
    (hread : ∀ e ∈ p.statement.operands, e.IsRead) :
    FailsBy Problem.Names64Bit (p.bytes overflow symbols) := by
  obtain ⟨line, address, size, statement⟩ := p
  cases statement with
  | instruction opcode operand =>
      cases operand with
      | none => exact .ok _
      | some e =>
          have he : e.IsRead := List.forall_mem_singleton.mp hread
          exact (failsBy_operandBytes hsymbols he opcode.form).map _
  | bytes items =>
      exact .map _ (.mapM fun e he => failsBy_operandBytes hsymbols (hread e he) .immediate)
  | words items =>
      exact .map _ (.mapM fun e he => failsBy_operandBytes hsymbols (hread e he) .absolute)
  | origin target => exact .ok _

namespace Draft

variable {draft next : Draft}

/-- The labels are bounded, and the operands are as they are read from texts. -/
structure IsRead (draft : Draft) : Prop where
  symbols : draft.symbols.Bounded
  operands : ∀ p ∈ draft.placed.toList, ∀ e ∈ p.statement.operands, e.IsRead

theorem isRead_start (base : UInt16) : (start base).IsRead where
  symbols := by rintro name address ⟨⟩
  operands := List.forall_mem_nil _

theorem IsRead.defines (h : draft.IsRead) (hlocation : draft.location ≤ addressLimit)
    {label : Option Text} (hdefines : draft.Defines label next) : next.IsRead := by
  cases hdefines with
  | unlabelled => exact h
  | @label label fresh =>
      refine ⟨?_, h.operands⟩
      intro name address hfind
      rw [List.lookup_cons] at hfind
      split at hfind
      · obtain rfl := Option.some.inj hfind
        exact hlocation
      · exact h.symbols name address hfind

theorem IsRead.places (h : draft.IsRead) {line : Nat} {body : Text}
    (hplaces : draft.Places overflow line body next) : next.IsRead := by
  cases hplaces with
  | blank => exact h
  | statement ne_nil read room fits =>
      refine ⟨h.symbols, ?_⟩
      rw [extend, Array.toList_push, List.forall_mem_append, List.forall_mem_singleton]
      exact ⟨h.operands, isRead_of_ofText read⟩

theorem IsRead.readLine {base line : Nat} {text : Text} (h : draft.IsRead)
    (hlaid : draft.Laid overflow base) (hread : draft.readLine overflow line text = .ok next) :
    next.IsRead := by
  obtain ⟨labelled, hdefines, hplaces⟩ := exists_of_readLine_ok hread
  exact (h.defines hlaid.location_le hdefines).places hplaces

theorem failsBy_sizeOf (h : draft.symbols.Bounded) {statement : Statement}
    (hread : ∀ e ∈ statement.operands, e.IsRead) :
    FailsBy Problem.Names64Bit (draft.sizeOf overflow statement) := by
  cases statement with
  | instruction _ _ | bytes _ | words _ => exact .ok _
  | origin target =>
      rw [sizeOf_origin]
      refine failsBy_value h (List.forall_mem_singleton.mp hread) fun v hv => ?_
      split
      · exact .error (Problem.names64Bit_outOfRange hv)
      · split
        · exact .error (Problem.names64Bit_of_not_computed id)
        · exact .ok _

theorem failsBy_placeBody (h : draft.symbols.Bounded) (line : Nat) (body : Text) :
    FailsBy Problem.Names64Bit (draft.placeBody overflow line body) := by
  rw [placeBody]
  split
  · exact .ok draft
  · cases hread : Statement.ofText body with
    | error problem =>
        exact .error (Problem.names64Bit_of_not_computed (not_computed_of_ofText hread))
    | ok statement =>
        simp only [place_eq]
        refine (failsBy_sizeOf h (isRead_of_ofText hread)).bind fun size _ => ?_
        split
        · exact .error (Problem.names64Bit_of_not_computed id)
        · exact .ok _

theorem failsBy_readLine {base : Nat} (h : draft.IsRead) (hlaid : draft.Laid overflow base)
    (line : Nat) (text : Text) :
    FailsBy (·.problem.Names64Bit) (draft.readLine overflow line text) := by
  rw [readLine]
  cases hlabel : draft.defineLabel (SourceLine.ofText text).label with
  | error problem =>
      exact .error (Problem.names64Bit_of_not_computed (not_computed_of_defineLabel hlabel))
  | ok labelled =>
      have hsymbols := (h.defines hlaid.location_le (defines_of_ok hlabel)).symbols
      exact (failsBy_placeBody hsymbols line _).mapError fun _ hproblem => hproblem

variable {base : Nat} {lines : List (Text × Nat)}

theorem IsRead.readLines (h : draft.IsRead) (hlaid : draft.Laid overflow base)
    (hread : draft.readLines overflow lines = .ok next) : next.IsRead := by
  induction lines generalizing draft with
  | nil =>
      obtain rfl := Except.ok.inj hread
      exact h
  | cons head tail ih =>
      obtain ⟨first, hfirst, htail⟩ := exists_of_readLines_cons hread
      exact ih (h.readLine hlaid hfirst) (hlaid.readLine hfirst) htail

theorem failsBy_readLines (h : draft.IsRead) (hlaid : draft.Laid overflow base) :
    FailsBy (·.problem.Names64Bit) (draft.readLines overflow lines) := by
  induction lines generalizing draft with
  | nil => exact .ok draft
  | cons head tail ih =>
      obtain ⟨text, line⟩ := head
      rw [readLines_cons_eq]
      exact (failsBy_readLine h hlaid line text).bind fun next hnext =>
        ih (h.readLine hlaid hnext) (hlaid.readLine hnext)

end Draft

/-- A value that an error names is a 64-bit number. -/
theorem is64Bit_of_outOfRange {source : Text} {base : UInt16} {line : Nat} {v : Int}
    (h : assemble source base overflow = .error ⟨line, .outOfRange v⟩) : Is64Bit v := by
  have hstart := Draft.isRead_start base
  have hlaid : (Draft.start base).Laid overflow base.toNat := Draft.laid_start base
  rw [assemble] at h
  cases hdraft : Draft.ofSource overflow source base with
  | error e =>
      rw [hdraft] at h
      obtain rfl := Except.error.inj h
      exact Draft.failsBy_readLines hstart hlaid _ hdraft v rfl
  | ok draft =>
      rw [hdraft] at h
      obtain ⟨hsymbols, hoperands⟩ := hstart.readLines hlaid hdraft
      have hfinish : FailsBy (·.problem.Names64Bit) (draft.finish overflow) :=
        .map _ (.mapM fun p hp =>
          (Placed.failsBy_bytes hsymbols (hoperands p hp)).mapError fun _ hproblem => hproblem)
      exact hfinish _ h v rfl

end Assembly
end Accumulator
