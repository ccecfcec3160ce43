import Accumulator.Proofs.Assembly.Sources
import Accumulator.Proofs.Results

/-!
# Builds with and without checks

A build without checks goes through every source and never stops at a sum. At every stage, a build
with checks gives the same result, unless it stops; so what one build assembles, the other assembles
to the same bytes or stops at.
-/

namespace Accumulator.Assembly

/-! ## Results of both builds -/

/-- What comes of the same work in both builds: the one without checks does not stop, and the one
with checks gives the same or stops. -/
structure Spares {ε α : Type} (stop : ε → Prop) (checked unchecked : Except ε α) : Prop where
  runs : ∀ e, unchecked = .error e → ¬ stop e
  same : checked = unchecked ∨ ∃ e, stop e ∧ checked = .error e

namespace Spares

variable {ε ε' α β : Type} {stop : ε → Prop} {x y : Except ε α}

theorem refl (h : ∀ e, x = .error e → ¬ stop e) : Spares stop x x := ⟨h, .inl rfl⟩

theorem ok (a : α) : Spares stop (.ok a) (.ok a) := refl fun _ h => by cases h

theorem error {e : ε} (h : ¬ stop e) : Spares stop (α := α) (.error e) (.error e) := by
  apply refl
  rintro other ⟨⟩
  exact h

theorem bind {f g : α → Except ε β} (h : Spares stop x y) (hnext : ∀ a, Spares stop (f a) (g a)) :
    Spares stop (x.bind f) (y.bind g) := by
  refine ⟨FailsBy.bind h.runs fun a _ => (hnext a).runs, ?_⟩
  obtain rfl | ⟨e, he, rfl⟩ := h.same
  · cases x with
    | error e => exact .inl rfl
    | ok a => exact (hnext a).same
  · exact .inr ⟨e, he, rfl⟩

theorem map (f : α → β) (h : Spares stop x y) : Spares stop (x.map f) (y.map f) := by
  refine ⟨FailsBy.map f h.runs, ?_⟩
  obtain rfl | ⟨e, he, rfl⟩ := h.same
  · exact .inl rfl
  · exact .inr ⟨e, he, rfl⟩

theorem mapError {stop' : ε' → Prop} {f : ε → ε'} (hf : ∀ e, stop' (f e) ↔ stop e)
    (h : Spares stop x y) : Spares stop' (x.mapError f) (y.mapError f) := by
  refine ⟨FailsBy.mapError (fun e => mt (hf e).mp) h.runs, ?_⟩
  obtain rfl | ⟨e, he, rfl⟩ := h.same
  · exact .inl rfl
  · exact .inr ⟨f e, (hf e).mpr he, rfl⟩

theorem mapM {f g : β → Except ε α} (h : ∀ b, Spares stop (f b) (g b)) (items : List β) :
    Spares stop (items.mapM f) (items.mapM g) := by
  induction items with
  | nil => exact ok []
  | cons b rest ih =>
      rw [mapM_cons_eq, mapM_cons_eq]
      exact (h b).bind fun _ => ih.map _

end Spares

/-! ## The stages of the assembler -/

theorem Expression.eval_sum (overflow : Overflow) (symbols : Symbols) (left : Expression)
    (sign : Sign) (right : Term) :
    (sum left sign right).eval overflow symbols =
      (left.eval overflow symbols).bind fun a =>
        (right.eval symbols).bind fun b => sign.apply overflow a b := by
  rw [eval]
  cases left.eval overflow symbols with
  | error problem => rfl
  | ok a =>
      cases right.eval symbols with
      | error problem => rfl
      | ok b => rfl

/-- The problem comes up where a value is computed. -/
def Problem.Computed : Problem → Prop
  | .outOfRange _ | .overflow => True
  | _ => False

theorem not_computed_of_readItems {directive : Text} {operand : Option Text} {problem : Problem}
    (h : readItems directive operand = .error problem) : ¬ problem.Computed := by
  cases operand with
  | none =>
      cases h
      exact id
  | some text =>
      rw [readItems] at h
      split at h
      · cases h
        exact id
      · cases h

theorem not_computed_of_readInstruction {word : Text} {operand : Option Text} {problem : Problem}
    (h : readInstruction word operand = .error problem) : ¬ problem.Computed := by
  rw [readInstruction] at h
  split at h
  · cases h
    exact id
  · split at h <;> cases h <;> exact id

/-- No value is computed where a statement is read. -/
theorem not_computed_of_ofText {body : Text} {problem : Problem}
    (h : Statement.ofText body = .error problem) : ¬ problem.Computed := by
  rw [Statement.ofText] at h
  simp only [] at h
  split at h
  · split at h
    · cases h
      exact id
    · cases h
  · split at h
    · exact not_computed_of_readItems (error_of_map_error h)
    · split at h
      · exact not_computed_of_readItems (error_of_map_error h)
      · exact not_computed_of_readInstruction h

theorem Draft.not_computed_of_defineLabel {draft : Draft} {label : Option Text}
    {problem : Problem} (h : draft.defineLabel label = .error problem) : ¬ problem.Computed := by
  cases label with
  | none => cases h
  | some label =>
      rw [defineLabel, define] at h
      split at h
      · cases h
        exact id
      · split at h
        · cases h
          exact id
        · cases h

theorem Draft.sizeOf_origin (overflow : Overflow) (draft : Draft) (target : Expression) :
    draft.sizeOf overflow (.origin target) =
      (target.eval overflow draft.symbols).bind fun value =>
        if value < 0 ∨ value ≥ addressLimit then .error (.outOfRange value)
        else if value < draft.location then .error .backwardOrigin
        else .ok (value.toNat - draft.location) := by
  rw [sizeOf]
  cases target.eval overflow draft.symbols with
  | error problem => rfl
  | ok value => rfl

theorem Draft.place_eq (overflow : Overflow) (draft : Draft) (line : Nat) (statement : Statement) :
    draft.place overflow line statement =
      (draft.sizeOf overflow statement).bind fun size =>
        if draft.location + size > addressLimit then .error .pastLastAddress
        else .ok (extend draft line statement size) := by
  rw [place]
  cases draft.sizeOf overflow statement with
  | error problem => rfl
  | ok size => rfl

theorem Draft.readLines_cons_eq (overflow : Overflow) (draft : Draft) (text : Text) (line : Nat)
    (rest : List (Text × Nat)) :
    draft.readLines overflow ((text, line) :: rest) =
      (draft.readLine overflow line text).bind fun next => next.readLines overflow rest := by
  rw [readLines]
  cases draft.readLine overflow line text with
  | error e => rfl
  | ok next => rfl

end Accumulator.Assembly
