import Mathlib

/-! A bounded first-in first-out channel with many senders and one receiver. -/

inductive TrySendError where
  | full
  | closed
deriving DecidableEq

/-- The messages in flight, the oldest first. -/
structure Channel (α : Type*) where
  capacity : ℕ
  buffer : List α
  /-- Whether the receiver is still there. -/
  hasReceiver : Bool
  length_le : buffer.length ≤ capacity

namespace Channel

variable {α : Type*} {c c' : Channel α} {x : α}

def new (capacity : ℕ) : Channel α := ⟨capacity, [], true, Nat.zero_le _⟩

/-- Sends without waiting. -/
def trySend (c : Channel α) (x : α) : Except TrySendError Unit × Channel α :=
  if c.hasReceiver = false then (.error .closed, c)
  else if h : c.buffer.length < c.capacity then
    (.ok (), { c with buffer := c.buffer ++ [x], length_le := by simpa using h })
  else (.error .full, c)

/-- What a receive is answered with: the oldest message, or the end of the stream once every
sender is gone; with neither it waits. -/
def recv (c : Channel α) (closed : Bool) : Option (Option α × Channel α) :=
  match h : c.buffer with
  | x :: rest => some (some x, { c with
      buffer := rest
      length_le := by
        have := c.length_le
        rw [h, List.length_cons] at this
        omega })
  | [] => if closed then some (none, c) else none

theorem trySend_cases (c : Channel α) (x : α) :
    ((c.trySend x).1 = .ok () ∧ (c.trySend x).2.buffer = c.buffer ++ [x]) ∨
      ∃ e, (c.trySend x).1 = .error e ∧ (c.trySend x).2 = c := by
  unfold trySend
  split
  · exact Or.inr ⟨.closed, rfl, rfl⟩
  · split
    · exact Or.inl ⟨rfl, rfl⟩
    · exact Or.inr ⟨.full, rfl, rfl⟩

theorem recv_some {closed : Bool} (h : c.recv closed = some (some x, c')) :
    c.buffer = x :: c'.buffer := by
  unfold recv at h
  split at h
  · next hbuffer =>
    cases h
    exact hbuffer
  · split at h <;> cases h

theorem recv_none {closed : Bool} (h : c.recv closed = some (none, c')) :
    closed = true ∧ c.buffer = [] ∧ c' = c := by
  unfold recv at h
  split at h
  · cases h
  · next hbuffer =>
    split at h
    · next hclosed =>
      cases h
      exact ⟨hclosed, hbuffer, rfl⟩
    · cases h

end Channel
