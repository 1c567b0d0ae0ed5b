import Mathlib

/-! Operations that change a state, also where they fail, and that may crash or never end; and
the rules to show from where they end, and how. -/
namespace Mutating

/-- An operation gives its result and the state after it, or nothing where it crashes or does
not end. -/
def Op (σ ε α : Type) : Type := σ → Option (Except ε α × σ)

namespace Op

variable {σ ε α β : Type}

instance : Monad (Op σ ε) where
  pure a := fun s => some (.ok a, s)
  bind m f := fun s =>
    match m s with
    | none => none
    | some (.error e, s) => some (.error e, s)
    | some (.ok a, s) => f a s

def fail (e : ε) : Op σ ε α := fun s => some (.error e, s)

def crash : Op σ ε α := fun _ => none

def get : Op σ ε σ := fun s => some (.ok s, s)

def set (s : σ) : Op σ ε Unit := fun _ => some (.ok (), s)

/-- Runs an operation on a state of its own, which is dropped after it. -/
def on (sub : σ) (m : Op σ ε α) : Op σ ε α := fun s =>
  match m sub with
  | none => none
  | some (res, _) => some (res, s)

end Op

variable {σ ε α β : Type} {m : Op σ ε α} {f : α → Op σ ε β} {s : σ} {a : α} {e : ε}
  {P P' : α → σ → Prop} {Q : β → σ → Prop} {E E' : ε → σ → Prop}

@[simp] theorem pure_apply (a : α) (s : σ) : (pure a : Op σ ε α) s = some (.ok a, s) := rfl

@[simp] theorem fail_apply (e : ε) (s : σ) : (Op.fail e : Op σ ε α) s = some (.error e, s) := rfl

@[simp] theorem get_bind (f : σ → Op σ ε β) (s : σ) : (Op.get >>= f) s = f s s := rfl

@[simp] theorem set_bind (t : σ) (f : Unit → Op σ ε β) (s : σ) :
    (Op.set t >>= f) s = f () t := rfl

theorem bind_of_ok {t : σ} (h : m s = some (.ok a, t)) : (m >>= f) s = f a t := by
  change (match m s with
    | none => none
    | some (.error e, s) => some (.error e, s)
    | some (.ok a, s) => f a s) = f a t
  rw [h]

theorem bind_of_error {t : σ} (h : m s = some (.error e, t)) :
    (m >>= f) s = some (.error e, t) := by
  change (match m s with
    | none => none
    | some (.error e, s) => some (.error e, s)
    | some (.ok a, s) => f a s) = some (.error e, t)
  rw [h]

theorem bind_congr_apply {m' : Op σ ε α} (h : m s = m' s) : (m >>= f) s = (m' >>= f) s := by
  change (match m s with
    | none => none
    | some (.error e, s) => some (.error e, s)
    | some (.ok a, s) => f a s) = (m' >>= f) s
  rw [h]
  rfl

/-- A sequence with a value: both its parts have one. -/
theorem bind_eq_ok {b : β} {t : σ} (h : (m >>= f) s = some (.ok b, t)) :
    ∃ a s', m s = some (.ok a, s') ∧ f a s' = some (.ok b, t) := by
  rcases hm : m s with _ | ⟨_ | _, _⟩
  · change (match m s with
      | none => none
      | some (.error e, s) => some (.error e, s)
      | some (.ok a, s) => f a s) = some (.ok b, t) at h
    rw [hm] at h
    cases h
  · rw [bind_of_error hm] at h
    cases h
  · rw [bind_of_ok hm] at h
    exact ⟨_, _, rfl, h⟩

/-- Where the rest of a sequence may be replaced, so it may in the sequence. -/
theorem bind_mono {g : α → Op σ ε β} {x : Except ε β × σ} (h : (m >>= f) s = some x)
    (hfg : ∀ a t, f a t = some x → g a t = some x) : (m >>= g) s = some x := by
  rcases hm : m s with _ | ⟨_ | a, t⟩
  · change (match m s with
      | none => none
      | some (.error e, s) => some (.error e, s)
      | some (.ok a, s) => f a s) = some x at h
    rw [hm] at h
    cases h
  · rw [bind_of_error hm] at h ⊢
    exact h
  · rw [bind_of_ok hm] at h ⊢
    exact hfg a t h

theorem on_of_ok {sub sub' : σ} (h : m sub = some (.ok a, sub')) :
    Op.on sub m s = some (.ok a, s) := by
  rw [Op.on, h]

theorem on_of_error {sub sub' : σ} (h : m sub = some (.error e, sub')) :
    Op.on sub m s = some (.error e, s) := by
  rw [Op.on, h]

theorem on_congr {m' : Op σ ε α} {sub : σ} (h : m sub = m' sub) :
    Op.on sub m s = Op.on sub m' s := by
  rw [Op.on, Op.on, h]

theorem on_eq_ok {sub t : σ} (h : Op.on sub m s = some (.ok a, t)) :
    t = s ∧ ∃ sub', m sub = some (.ok a, sub') := by
  rw [Op.on] at h
  rcases hm : m sub with _ | ⟨res, sub'⟩
  · rw [hm] at h
    cases h
  · rw [hm] at h
    cases h
    exact ⟨rfl, sub', rfl⟩

/-- From `s` the operation ends, with a value and a state for which `P` holds or with an error
and a state for which `E` does. -/
def Ends (m : Op σ ε α) (s : σ) (P : α → σ → Prop) (E : ε → σ → Prop) : Prop :=
  (∃ a t, m s = some (.ok a, t) ∧ P a t) ∨ ∃ e t, m s = some (.error e, t) ∧ E e t

theorem Ends.pure (h : P a s) : Ends (pure a : Op σ ε α) s P E := Or.inl ⟨a, s, rfl, h⟩

theorem Ends.mono (h : Ends m s P E) (hP : ∀ a t, P a t → P' a t)
    (hE : ∀ e t, E e t → E' e t) : Ends m s P' E' := by
  rcases h with ⟨a, t, hm, hp⟩ | ⟨e, t, hm, he⟩
  · exact Or.inl ⟨a, t, hm, hP a t hp⟩
  · exact Or.inr ⟨e, t, hm, hE e t he⟩

theorem Ends.mono_error (h : Ends m s P E) (hE : ∀ e t, E e t → E' e t) : Ends m s P E' :=
  h.mono (fun _ _ hp => hp) hE

theorem Ends.bind (h : Ends m s P E) (hf : ∀ a t, P a t → Ends (f a) t Q E) :
    Ends (m >>= f) s Q E := by
  rcases h with ⟨a, t, hm, hp⟩ | ⟨e, t, hm, he⟩
  · rw [Ends, bind_of_ok hm]
    exact hf a t hp
  · exact Or.inr ⟨e, t, bind_of_error hm, he⟩

/-- What runs on a state of its own leaves the state it was started from. -/
theorem Ends.on {sub : σ} (h : Ends m sub P E) :
    Ends (Op.on sub m) s (fun a t => t = s ∧ ∃ t', P a t') (fun _ t => t = s) := by
  rcases h with ⟨a, t, hm, hp⟩ | ⟨e, t, hm, he⟩
  · exact Or.inl ⟨a, s, on_of_ok hm, rfl, t, hp⟩
  · exact Or.inr ⟨e, s, on_of_error hm, rfl⟩

theorem Ends.of_ok {t : σ} (h : Ends m s P E) (hm : m s = some (.ok a, t)) : P a t := by
  rcases h with ⟨a', t', hm', hp⟩ | ⟨e, t', hm', -⟩
  · rw [hm] at hm'
    cases hm'
    exact hp
  · rw [hm] at hm'
    cases hm'

end Mutating
