import MtcCa.Lib.Transition

/-! Forward simulation of one labelled transition relation by another, an event of the first
standing for the same event of the second, or for any number of its events. -/
namespace Transition

variable {σ τ α β : Type*} {step : σ → α → σ → Prop} {step' : τ → β → τ → Prop}
  {stepα : τ → α → τ → Prop} {R : σ → τ → Prop} {M : α → List β → Prop} {s s' : σ} {t : τ}
  {as : List α}

theorem forall₂_concat {bss : List (List β)} {a : α} {bs : List β} (h : List.Forall₂ M as bss)
    (hm : M a bs) : List.Forall₂ M (as ++ [a]) (bss ++ [bs]) :=
  List.rel_append h (.cons hm .nil)

/-- Steps that can be followed along `R` event by event make such runs. -/
theorem Trace.followed (h : Trace step s as s') (hr : R s t)
    (hstep : ∀ s a s' t, step s a s' → R s t → ∃ t', stepα t a t' ∧ R s' t') :
    ∃ t', Trace stepα t as t' ∧ R s' t' := by
  induction h with
  | refl => exact ⟨t, .refl, hr⟩
  | snoc _ hlast ih =>
    obtain ⟨u, htrace, hu⟩ := ih
    obtain ⟨t', ht, hr'⟩ := hstep _ _ _ _ hlast hu
    exact ⟨t', .snoc htrace ht, hr'⟩

/-- Steps that can be followed along `R` make runs that can be followed along `R`. -/
theorem Trace.simulated (h : Trace step s as s') (hr : R s t)
    (hstep : ∀ s a s' t, step s a s' → R s t →
      ∃ bs t', M a bs ∧ Trace step' t bs t' ∧ R s' t') :
    ∃ bss t', List.Forall₂ M as bss ∧ Trace step' t bss.flatten t' ∧ R s' t' := by
  induction h with
  | refl => exact ⟨[], t, .nil, .refl, hr⟩
  | snoc _ hlast ih =>
    obtain ⟨bss, u, hmatch, htrace, hu⟩ := ih
    obtain ⟨bs, t', hm, hmore, hr'⟩ := hstep _ _ _ _ hlast hu
    refine ⟨bss ++ [bs], t', forall₂_concat hmatch hm, ?_, hr'⟩
    rw [List.flatten_append, List.flatten_singleton]
    exact htrace.append hmore

end Transition
