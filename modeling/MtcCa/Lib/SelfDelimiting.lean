import MtcCa.Lib.Outcome

/-! Encoders whose encodings determine where they end. -/
namespace Encoding

variable {α γ β ε : Type*} {write : α → Except ε (List β)} {v v' : α} {b b' s s' : List β}

/-- Whatever follows an encoding, the value and what follows it can be told apart. -/
def SelfDelimiting (write : α → Except ε (List β)) : Prop :=
  ∀ ⦃v v' b b' s s'⦄, write v = .ok b → write v' = .ok b' → b ++ s = b' ++ s' → v = v' ∧ s = s'

/-- An encoding belongs to one value. -/
theorem SelfDelimiting.eq (h : SelfDelimiting write) (hv : write v = .ok b)
    (hv' : write v' = .ok b) : v = v' :=
  (@h v v' b b [] [] hv hv' rfl).1

/-- No encoding continues another one. -/
theorem SelfDelimiting.not_prefix (h : SelfDelimiting write) (hv : write v = .ok b)
    (hv' : write v' = .ok b') (hne : v ≠ v') : ¬ b <+: b' := by
  rintro ⟨s, hs⟩
  exact hne (@h v v' b b' s [] hv hv' (by rw [hs, List.append_nil])).1

theorem SelfDelimiting.comap (h : SelfDelimiting write) {f : γ → α} (hf : Function.Injective f) :
    SelfDelimiting (write ∘ f) := by
  intro v v' b b' s s' hv hv' heq
  obtain ⟨hfv, hs⟩ := h hv hv' heq
  exact ⟨hf hfv, hs⟩

/-- Encodings of one length end where that length is reached. -/
theorem of_length {n : ℕ} (hlen : ∀ v b, write v = .ok b → b.length = n)
    (hinj : ∀ v v' b, write v = .ok b → write v' = .ok b → v = v') : SelfDelimiting write := by
  intro v v' b b' s s' hv hv' heq
  obtain ⟨rfl, rfl⟩ := List.append_inj heq ((hlen v b hv).trans (hlen v' b' hv').symm)
  exact ⟨hinj v v' b hv hv', rfl⟩

end Encoding
