import Mathlib

/-! Runs of a labelled transition relation and their invariants. -/
namespace Transition

variable {σ α : Type*} {step : σ → α → σ → Prop} {s t u : σ} {a : α} {as bs : List α}

/-- The runs from `s` to `t`, with the labels of their steps in order. -/
inductive Trace (step : σ → α → σ → Prop) (s : σ) : List α → σ → Prop where
  | refl : Trace step s [] s
  | snoc {as : List α} {a : α} {t u : σ} : Trace step s as t → step t a u →
      Trace step s (as ++ [a]) u

theorem Trace.append (h : Trace step s as t) (h' : Trace step t bs u) :
    Trace step s (as ++ bs) u := by
  induction h' with
  | refl => rwa [List.append_nil]
  | snoc _ hstep ih =>
    rw [← List.append_assoc]
    exact .snoc ih hstep

theorem Trace.cons (hstep : step s a t) (h : Trace step t as u) : Trace step s (a :: as) u :=
  Trace.append (.snoc .refl hstep) h

/-- A map of states and labels that carries steps to steps carries runs to runs. -/
theorem Trace.map {τ β : Type*} {step' : τ → β → τ → Prop} {f : σ → τ} {g : α → β}
    (h : Trace step s as t) (hstep : ∀ s a t, step s a t → step' (f s) (g a) (f t)) :
    Trace step' (f s) (as.map g) (f t) := by
  induction h with
  | refl => exact .refl
  | snoc _ hst ih =>
    rw [List.map_append]
    exact .snoc ih (hstep _ _ _ hst)

/-- A run splits at every point of its label list. -/
theorem Trace.split (h : Trace step s (as ++ bs) u) :
    ∃ t, Trace step s as t ∧ Trace step t bs u := by
  induction bs using List.reverseRecOn generalizing u with
  | nil => exact ⟨u, by rwa [List.append_nil] at h, .refl⟩
  | append_singleton bs b ih =>
    rw [← List.append_assoc] at h
    generalize hl : as ++ bs ++ [b] = l at h
    cases h with
    | refl => simp at hl
    | snoc htrace hstep =>
      obtain ⟨rfl, hb⟩ := List.append_inj' hl rfl
      obtain rfl : b = _ := List.cons.inj hb |>.1
      obtain ⟨t, h₁, h₂⟩ := ih htrace
      exact ⟨t, h₁, .snoc h₂ hstep⟩

theorem Trace.step_of_singleton (h : Trace step s [a] t) : step s a t := by
  generalize hl : [a] = l at h
  cases h with
  | refl => cases hl
  | snoc htrace hstep =>
    obtain ⟨hnil, hb⟩ := List.append_inj' (show [] ++ [a] = _ from hl) rfl
    obtain rfl : a = _ := List.cons.inj hb |>.1
    rw [← hnil] at htrace
    generalize hl' : ([] : List α) = l' at htrace
    cases htrace with
    | refl => exact hstep
    | snoc => simp at hl'

/-- Every label of a run is a step between two of its states. -/
theorem Trace.exists_step_of_mem (h : Trace step s as u) (ha : a ∈ as) :
    ∃ bs t t' cs, Trace step s bs t ∧ step t a t' ∧ Trace step t' cs u ∧ as = bs ++ a :: cs := by
  obtain ⟨bs, cs, rfl⟩ := List.append_of_mem ha
  obtain ⟨t, hbefore, hrest⟩ := h.split
  obtain ⟨t', hone, hafter⟩ := (show Trace step t ([a] ++ cs) u from hrest).split
  exact ⟨bs, t, t', cs, hbefore, hone.step_of_singleton, hafter, rfl⟩

/-- A property kept by every step is kept by every run. -/
theorem Trace.invariant {P : σ → Prop} (h : Trace step s as t)
    (hstep : ∀ s a t, step s a t → P s → P t) (hs : P s) : P t := by
  induction h with
  | refl => exact hs
  | snoc _ hst ih => exact hstep _ _ _ hst ih

/-- A property of the labels so far and the state, extended by every step, holds of
every run. -/
theorem Trace.history {P : List α → σ → Prop} (h : Trace step s as t)
    (hstep : ∀ as a s t, step s a t → P as s → P (as ++ [a]) t) (hs : P [] s) : P as t := by
  induction h with
  | refl => exact hs
  | snoc _ hst ih => exact hstep _ _ _ _ hst ih

end Transition
