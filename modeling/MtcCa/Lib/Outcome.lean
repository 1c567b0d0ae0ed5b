import Mathlib

/-! Peeling fallible computations apart: a bind succeeds exactly when both its parts do. -/
namespace Outcome

universe u v

variable {ε : Type u} {α β : Type v} {x : Except ε α} {f : α → Except ε β} {a : α} {b : β} {err : ε}

theorem bind_eq_ok_iff : x >>= f = .ok b ↔ ∃ a, x = .ok a ∧ f a = .ok b := by
  cases x <;> simp [bind, Except.bind]

theorem bind_eq_error_iff :
    x >>= f = .error err ↔ x = .error err ∨ ∃ a, x = .ok a ∧ f a = .error err := by
  cases x <;> simp [bind, Except.bind]

@[simp] theorem ok_bind : ((Except.ok a : Except ε α) >>= f) = f a := rfl

@[simp] theorem error_bind : ((Except.error err : Except ε α) >>= f) = .error err := rfl

/-- What does not succeed fails. -/
theorem forall_ne_ok_iff : (∀ a, x ≠ .ok a) ↔ ∃ e, x = .error e := by
  cases x <;> simp

/-- Renaming the error keeps the successes. -/
theorem mapError_eq_ok_iff {ε' : Type u} {g : ε → ε'} : x.mapError g = .ok a ↔ x = .ok a := by
  cases x <;> simp [Except.mapError]

/-- A guard that fails with an error is passed exactly when its test is false. -/
theorem ite_error_eq_ok_iff {c : Prop} [Decidable c] {y : Except ε β} :
    (if c then .error err else y) = .ok b ↔ ¬ c ∧ y = .ok b := by
  split <;> simp_all

/-- A guard that must hold for success. -/
theorem ite_else_error_eq_ok_iff {c : Prop} [Decidable c] {y : Except ε β} :
    (if c then y else .error err) = .ok b ↔ c ∧ y = .ok b := by
  split <;> simp_all

/-- A loop that succeeds on every element collects one result for each. -/
theorem exists_mapM_eq_ok {P : α → β → Prop} {l : List α}
    (h : ∀ a ∈ l, ∃ b, f a = .ok b ∧ P a b) : ∃ bs, l.mapM f = .ok bs ∧ List.Forall₂ P l bs := by
  induction l with
  | nil => exact ⟨[], rfl, .nil⟩
  | cons a l ih =>
    obtain ⟨b, hb, hP⟩ := h a (List.mem_cons_self ..)
    obtain ⟨bs, hbs, hall⟩ := ih (fun a' ha' => h a' (List.mem_cons_of_mem _ ha'))
    refine ⟨b :: bs, ?_, .cons hP hall⟩
    rw [List.mapM_cons, hb, ok_bind, hbs]
    rfl

/-- A loop that succeeds has succeeded on every element. -/
theorem forall₂_of_mapM_eq_ok {l : List α} {bs : List β} (h : l.mapM f = .ok bs) :
    List.Forall₂ (fun a b => f a = .ok b) l bs := by
  induction l generalizing bs with
  | nil =>
    cases h
    exact .nil
  | cons a l ih =>
    rw [List.mapM_cons] at h
    obtain ⟨b, hb, hrest⟩ := bind_eq_ok_iff.mp h
    obtain ⟨bs', hbs, hok⟩ := bind_eq_ok_iff.mp hrest
    cases hok
    exact .cons hb (ih hbs)

/-- Every collected result comes from an element. -/
theorem exists_of_mem_right {P : α → β → Prop} {l : List α} {bs : List β}
    (h : List.Forall₂ P l bs) (hb : b ∈ bs) : ∃ a ∈ l, P a b := by
  induction h with
  | nil => cases hb
  | cons hP hrest ih =>
    rcases List.mem_cons.mp hb with rfl | hb
    · exact ⟨_, List.mem_cons_self .., hP⟩
    · obtain ⟨a, ha, hPa⟩ := ih hb
      exact ⟨a, List.mem_cons_of_mem _ ha, hPa⟩

end Outcome
