import Mathlib.Data.List.Forall2

/-!
# Results that may be errors

What a successful result says about the parts it was computed from.
-/

namespace Accumulator

variable {ε ε' α β : Type}

theorem exists_of_map_ok {x : Except ε α} {f : α → β} {b : β} (h : x.map f = .ok b) :
    ∃ a, x = .ok a ∧ b = f a := by
  cases x with
  | error e => simp [Except.map] at h
  | ok a => exact ⟨a, rfl, (Except.ok.inj h).symm⟩

theorem error_of_map_error {x : Except ε α} {f : α → β} {e : ε} (h : x.map f = .error e) :
    x = .error e := by
  cases x with
  | error e' => exact congrArg Except.error (Except.error.inj h)
  | ok a => simp [Except.map] at h

theorem ok_of_mapError_ok {x : Except ε α} {f : ε → ε'} {a : α} (h : x.mapError f = .ok a) :
    x = .ok a := by
  cases x with
  | error e => simp [Except.mapError] at h
  | ok b => rw [← Except.ok.inj h]

theorem exists_of_mapError_error {x : Except ε α} {f : ε → ε'} {e' : ε'}
    (h : x.mapError f = .error e') : ∃ e, x = .error e ∧ e' = f e := by
  cases x with
  | error e => exact ⟨e, rfl, (Except.error.inj h).symm⟩
  | ok a => simp [Except.mapError] at h

theorem ok_of_toOption {x : Except ε α} {a : α} (h : x.toOption = some a) : x = .ok a := by
  cases x with
  | error e => cases h
  | ok b => exact congrArg Except.ok (Option.some.inj h)

theorem exists_of_bind_ok {x : Except ε α} {f : α → Except ε β} {b : β} (h : x.bind f = .ok b) :
    ∃ a, x = .ok a ∧ f a = .ok b := by
  cases x with
  | error e => simp [Except.bind] at h
  | ok a => exact ⟨a, rfl, h⟩

/-- Whatever error comes out is of a kind. -/
def FailsBy (kind : ε → Prop) (x : Except ε α) : Prop := ∀ e, x = .error e → kind e

namespace FailsBy

variable {kind : ε → Prop} {x : Except ε α}

theorem ok (a : α) : FailsBy kind (.ok a) := by
  rintro e ⟨⟩

theorem error {e : ε} (h : kind e) : FailsBy (α := α) kind (.error e) := by
  rintro _ ⟨⟩
  exact h

theorem bind {f : α → Except ε β} (h : FailsBy kind x)
    (hnext : ∀ a, x = .ok a → FailsBy kind (f a)) : FailsBy kind (x.bind f) := by
  cases x with
  | error e => exact error (h e rfl)
  | ok a => exact hnext a rfl

theorem map (f : α → β) (h : FailsBy kind x) : FailsBy kind (x.map f) :=
  fun e he => h e (error_of_map_error he)

theorem mapError {kind' : ε' → Prop} {f : ε → ε'} (hf : ∀ e, kind e → kind' (f e))
    (h : FailsBy kind x) : FailsBy kind' (x.mapError f) := by
  intro e' he'
  obtain ⟨e, he, rfl⟩ := exists_of_mapError_error he'
  exact hf e (h e he)

end FailsBy

theorem mapM_cons_eq (f : α → Except ε β) (a : α) (rest : List α) :
    (a :: rest).mapM f = (f a).bind fun b => (rest.mapM f).map (b :: ·) := by
  rw [List.mapM_cons]
  cases f a with
  | error e => rfl
  | ok b =>
      cases rest.mapM f with
      | error e => rfl
      | ok bs => rfl

theorem FailsBy.mapM {kind : ε → Prop} {f : β → Except ε α} {items : List β}
    (h : ∀ b ∈ items, FailsBy kind (f b)) : FailsBy kind (items.mapM f) := by
  induction items with
  | nil => exact ok []
  | cons b rest ih =>
      rw [List.forall_mem_cons] at h
      rw [mapM_cons_eq]
      exact h.1.bind fun _ _ => (ih h.2).map _

/-- If each item gives the part beside it, the items together give the parts. -/
theorem mapM_of_forall₂ {f : α → Except ε β} {items : List α} {parts : List β}
    (h : List.Forall₂ (fun a b => f a = .ok b) items parts) : items.mapM f = .ok parts := by
  induction h with
  | nil => rfl
  | cons first rest ih =>
      rw [mapM_cons_eq, first, ih]
      rfl

/-- If the items together give parts, each item gives the part beside it. -/
theorem forall₂_of_mapM {f : α → Except ε β} {items : List α} {parts : List β}
    (h : items.mapM f = .ok parts) : List.Forall₂ (fun a b => f a = .ok b) items parts := by
  induction items generalizing parts with
  | nil =>
      obtain rfl := Except.ok.inj h
      exact .nil
  | cons a rest ih =>
      rw [mapM_cons_eq] at h
      obtain ⟨b, hb, hrest⟩ := exists_of_bind_ok h
      obtain ⟨others, hothers, rfl⟩ := exists_of_map_ok hrest
      exact .cons hb (ih hothers)

/-- If changing an item changes nothing but the error, neither does changing all items. -/
theorem mapM_mapError {α' : Type} {f : α → Except ε β} {f' : α' → Except ε' β}
    {change : α → α'} {changeError : ε → ε'}
    (h : ∀ a, f' (change a) = (f a).mapError changeError) (items : List α) :
    (items.map change).mapM f' = (items.mapM f).mapError changeError := by
  induction items with
  | nil => rfl
  | cons a rest ih =>
      rw [List.map_cons, mapM_cons_eq, mapM_cons_eq, h, ih]
      cases f a with
      | error e => rfl
      | ok b =>
          cases rest.mapM f with
          | error e => rfl
          | ok bs => rfl

/-- The items together give an error exactly if it is that of the first item that gives one. -/
theorem mapM_eq_error_iff {f : α → Except ε β} {items : List α} {e : ε} :
    items.mapM f = .error e ↔
      ∃ a, items.find? (fun a => (f a).toOption.isNone) = some a ∧ f a = .error e := by
  induction items with
  | nil =>
      constructor
      · rintro ⟨⟩
      · rintro ⟨a, ⟨⟩, _⟩
  | cons a rest ih =>
      rw [mapM_cons_eq, List.find?_cons]
      cases ha : f a with
      | error e' => simp [Except.bind, Except.toOption, ha]
      | ok b =>
          have hrest : (rest.mapM f).map (b :: ·) = .error e ↔ rest.mapM f = .error e := by
            cases rest.mapM f with
            | error e' => exact Iff.rfl
            | ok bs => simp [Except.map]
          exact hrest.trans ih

theorem exists_mapM_error_of_mem {f : α → Except ε β} {items : List α} {a : α} {e : ε}
    (ha : a ∈ items) (h : f a = .error e) : ∃ e', items.mapM f = .error e' := by
  cases hall : items.mapM f with
  | error e' => exact ⟨e', rfl⟩
  | ok parts =>
      obtain ⟨i, hi, rfl⟩ := List.mem_iff_getElem.mp ha
      have hitems := forall₂_of_mapM hall
      have hok := (List.forall₂_iff_get.mp hitems).2 i hi (hitems.length_eq ▸ hi)
      rw [List.get_eq_getElem, h] at hok
      cases hok

/-- Items that come in groups may be taken group by group. -/
theorem mapM_flatMap {α' : Type} {f : α → Except ε β} {g : α' → List α} (groups : List α') :
    (groups.flatMap g).mapM f = (groups.mapM fun a => (g a).mapM f).map List.flatten := by
  induction groups with
  | nil => rfl
  | cons a rest ih =>
      rw [List.flatMap_cons, List.mapM_append, ih, mapM_cons_eq]
      cases (g a).mapM f with
      | error e => rfl
      | ok bs =>
          cases rest.mapM fun a => (g a).mapM f with
          | error e => rfl
          | ok others => rfl

end Accumulator
