import MtcCa.Cloud.Types
import MtcCa.Lib.CasLoop
import MtcCa.Lib.Saturating

/-! The fake clock: one atomic word that concurrent calls of `advance` and `set` move forward
(`crates/clock/src/fake.rs`). -/
namespace Clock

open CasLoop Cloud Saturating Transition

/-- A backward `set`: the time of the clock, and the earlier time that was asked for. -/
structure ClockWentBackward where
  current : SystemTime
  requested : SystemTime
deriving DecidableEq

/-- Nanoseconds since the epoch, from 0 for earlier times to the largest word for later ones. -/
def timeToNanos (t : SystemTime) : UInt64 := if t.nanos < 0 then 0 else saturate t.nanos.toNat

def nanosToTime (nanos : UInt64) : SystemTime := ⟨nanos.toNat⟩

/-- The calls that change the clock. -/
inductive ClockOp where
  | advance (delta : Duration)
  | set (requested : SystemTime)
deriving DecidableEq

/-- What `advance` adds: the nanoseconds that fit a word. -/
def clampedNanos (delta : Duration) : UInt64 := saturate delta.nanos

/-- The value that a call writes over the one it has read, unless it gives up. -/
def attempt : ClockOp → UInt64 → Option UInt64
  | .advance delta, current => some (saturatingAdd current (clampedNanos delta))
  | .set requested, current =>
    let target := timeToNanos requested
    if target < current then none else some target

/-- What `advance` returns. -/
def advanceResult : Outcome UInt64 → Option SystemTime
  | .wrote _ new => some (nanosToTime new)
  | .gaveUp _ => none

/-- What `set` returns. -/
def setResult (requested : SystemTime) : Outcome UInt64 → Except ClockWentBackward Unit
  | .wrote _ _ => .ok ()
  | .gaveUp current => .error ⟨nanosToTime current, requested⟩

/-- The clock, and its calls. -/
abbrev FakeClock : Type := CasLoop.State UInt64 ClockOp

abbrev ClockEvent : Type := CasLoop.Event UInt64 ClockOp

namespace FakeClock

def new (start : SystemTime) : FakeClock := State.init (timeToNanos start)

/-- `Clock::now`, a load of the word. -/
def now (c : FakeClock) : SystemTime := nanosToTime c.reg

/-- The interleavings of the steps of any number of calls. -/
abbrev Runs (start : SystemTime) (events : List ClockEvent) (c : FakeClock) : Prop :=
  Trace (CasLoop.Step attempt) (new start) events c

end FakeClock

variable {start requested : SystemTime} {delta : Duration} {events : List ClockEvent}
  {c : FakeClock} {i : ℕ} {o : ClockOp} {old new : UInt64}

theorem toNat_clampedNanos (delta : Duration) :
    (clampedNanos delta).toNat = min delta.nanos (2 ^ 64 - 1) := toNat_saturate _

theorem attempt_advance (h : attempt (.advance delta) old = some new) :
    new.toNat = min (old.toNat + (clampedNanos delta).toNat) (2 ^ 64 - 1) := by
  cases h
  exact toNat_saturatingAdd _ _

theorem attempt_set (h : attempt (.set requested) old = some new) :
    old ≤ timeToNanos requested ∧ new = timeToNanos requested := by
  rw [attempt] at h
  split at h
  · cases h
  · next hlt =>
    cases h
    exact ⟨UInt64.not_lt.mp hlt, rfl⟩

theorem attempt_set_eq_none (h : attempt (.set requested) old = none) :
    timeToNanos requested < old := by
  rw [attempt] at h
  split at h
  · next hlt => exact hlt
  · cases h

/-- No write moves the clock back. -/
theorem le_of_attempt (h : attempt o old = some new) : old ≤ new := by
  cases o with
  | advance delta =>
    have hold := old.toNat_lt
    rw [UInt64.le_iff_toNat_le, attempt_advance h]
    omega
  | set requested =>
    obtain ⟨hle, rfl⟩ := attempt_set h
    exact hle

/-- What a completed call has added to the clock. -/
def addedBy : ClockOp → ℕ
  | .advance delta => (clampedNanos delta).toNat
  | .set _ => 0

/-- What the writes of advances alone add up to. -/
theorem toNat_of_writes {v v' : UInt64} {ws : List (ℕ × ClockOp × UInt64 × UInt64)}
    (h : Writes attempt v ws v') (hadvance : ∀ w ∈ ws, ∃ delta, w.2.1 = .advance delta) :
    v'.toNat = min (v.toNat + (ws.map (fun w => addedBy w.2.1)).sum) (2 ^ 64 - 1) := by
  induction h with
  | nil =>
    have hlt := v.toNat_lt
    rw [List.map_nil, List.sum_nil]
    omega
  | @snoc ws old new i o h hnext ih =>
    have hrest := ih (fun w hw => hadvance w (List.mem_append_left _ hw))
    obtain ⟨delta, hdelta⟩ := hadvance (i, o, old, new)
      (List.mem_append_right _ (List.mem_singleton_self _))
    change o = .advance delta at hdelta
    subst hdelta
    rw [attempt_advance hnext, hrest, List.map_append, List.sum_append, List.map_singleton,
      List.sum_singleton]
    change _ = min (_ + (_ + (clampedNanos delta).toNat)) _
    omega

/-- An advance returns after a write only. -/
theorem returned_advance {outcome : Outcome UInt64} (h : FakeClock.Runs start events c)
    (hret : .returned i (.advance delta) outcome ∈ events) :
    ∃ old new, outcome = .wrote old new := by
  cases outcome with
  | wrote old new => exact ⟨old, new, rfl⟩
  | gaveUp current =>
    have hnone := ((writesOf_of_returned h hret).2.2.2 current rfl).1
    cases hnone

/-- All calls so far are advances. -/
def OnlyAdvances (events : List ClockEvent) : Prop :=
  ∀ i o, .invoked i o ∈ events → ∃ delta, o = .advance delta

theorem mem_ret_iff {r : ℕ × ClockOp × Outcome UInt64} :
    r ∈ events.filterMap Event.ret ↔ .returned r.1 r.2.1 r.2.2 ∈ events := by
  rw [List.mem_filterMap]
  constructor
  · rintro ⟨e, he, hr⟩
    cases e with
    | returned i o outcome =>
      cases hr
      exact he
    | _ => cases hr
  · intro h
    exact ⟨_, h, rfl⟩

/-- With advances only, and none of them under way, the clock has moved by the sum of them. -/
theorem toNat_of_onlyAdvances (h : FakeClock.Runs start events c) (hall : OnlyAdvances events)
    (hquiet : Quiet c) :
    c.reg.toNat = min ((timeToNanos start).toNat +
      ((events.filterMap Event.ret).map (fun r => addedBy r.2.1)).sum) (2 ^ 64 - 1) := by
  have hperm := writes_perm_completedWrites h hquiet
  have hwrote : ∀ r ∈ events.filterMap Event.ret, ∃ old new delta,
      r.2.1 = .advance delta ∧ r.2.2 = .wrote old new := by
    rintro ⟨i, o, outcome⟩ hr
    have hret := mem_ret_iff.mp hr
    obtain ⟨delta, rfl⟩ := hall i o (writesOf_of_returned h hret).2.1
    obtain ⟨old, new, hout⟩ := returned_advance h hret
    exact ⟨old, new, delta, rfl, hout⟩
  have hadvance : ∀ w ∈ events.filterMap Event.write, ∃ delta, w.2.1 = .advance delta := by
    intro w hw
    obtain ⟨⟨i, o, outcome⟩, hr, hwr⟩ := List.mem_filterMap.mp (hperm.mem_iff.mp hw)
    obtain ⟨old, new, delta, rfl, rfl⟩ := hwrote _ hr
    cases hwr
    exact ⟨delta, rfl⟩
  have hmap : (completedWrites events).map (fun w => addedBy w.2.1) =
      (events.filterMap Event.ret).map (fun r => addedBy r.2.1) := by
    rw [completedWrites, List.map_filterMap, ← List.filterMap_eq_map]
    apply List.filterMap_congr
    rintro ⟨i, o, outcome⟩ hr
    obtain ⟨old, new, delta, -, rfl⟩ := hwrote _ hr
    rfl
  rw [toNat_of_writes (writes_of_trace h) hadvance, (hperm.map _).sum_eq, hmap]
  rfl

/-- In every interleaving of the steps of any number of calls: the clock does not go back; its
value comes from one write after the other; a completed advance made one write, which added its
amount; with advances only the clock has moved by their sum; a `set` that succeeded moved it
from a value not above its target to the target; and one that failed wrote nothing, its target
below a value that the clock had had. -/
theorem fakeClock_interleavings (h : FakeClock.Runs start events c) :
    (∀ as m bs, events = as ++ bs → FakeClock.Runs start as m →
      Trace (CasLoop.Step attempt) m bs c → m.reg ≤ c.reg) ∧
    Writes attempt (timeToNanos start) (events.filterMap Event.write) c.reg ∧
    (∀ i delta outcome, .returned i (.advance delta) outcome ∈ events →
      ∃ old new, outcome = .wrote old new ∧
        writesOf i events = [(i, .advance delta, old, new)] ∧
        new.toNat = min (old.toNat + min delta.nanos (2 ^ 64 - 1)) (2 ^ 64 - 1)) ∧
    (OnlyAdvances events → Quiet c →
      c.reg.toNat = min ((timeToNanos start).toNat +
        ((events.filterMap Event.ret).map (fun r => addedBy r.2.1)).sum) (2 ^ 64 - 1)) ∧
    ∀ i requested outcome, .returned i (.set requested) outcome ∈ events →
      (setResult requested outcome = .ok () →
        ∃ old as m m' bs, old ≤ timeToNanos requested ∧
          writesOf i events = [(i, .set requested, old, timeToNanos requested)] ∧
          events = as ++ .swapped i (.set requested) old (timeToNanos requested) :: bs ∧
          FakeClock.Runs start as m ∧ m.reg = old ∧ m'.reg = timeToNanos requested ∧
          Trace (CasLoop.Step attempt) m' bs c) ∧
      ∀ err, setResult requested outcome = .error err →
        writesOf i events = [] ∧ err.requested = requested ∧
          ∃ current, err.current = nanosToTime current ∧ timeToNanos requested < current ∧
            Reached attempt (FakeClock.new start) events current := by
  refine ⟨?_, writes_of_trace h, ?_, toNat_of_onlyAdvances h, ?_⟩
  · intro as m bs _ _ hrest
    exact reg_rel (fun _ => UInt64.le_rfl) (fun _ _ _ => UInt64.le_trans)
      (fun _ _ _ hnext => le_of_attempt hnext) hrest
  · intro i delta outcome hret
    obtain ⟨old, new, rfl⟩ := returned_advance h hret
    obtain ⟨hw, -, hn, -⟩ := writesOf_of_returned h hret
    have hnew := attempt_advance (hn old new rfl)
    rw [toNat_clampedNanos] at hnew
    exact ⟨old, new, rfl, hw, hnew⟩
  · intro i requested outcome hret
    obtain ⟨hw, -, hn, hg⟩ := writesOf_of_returned h hret
    cases outcome with
    | wrote old new =>
      refine ⟨?_, fun err herr => by cases herr⟩
      intro _
      obtain ⟨hle, rfl⟩ := attempt_set (hn old new rfl)
      obtain ⟨as, m, m', bs, hes, hbefore, hold, hnew, hafter⟩ := swapped_of_returned h hret
      exact ⟨old, as, m, m', bs, hle, hw, hes, hbefore, hold, hnew, hafter⟩
    | gaveUp current =>
      refine ⟨fun hok => (by cases hok), ?_⟩
      rintro _ ⟨⟩
      obtain ⟨hnone, hreached⟩ := hg current rfl
      exact ⟨hw, rfl, current, rfl, attempt_set_eq_none hnone, hreached⟩

/-- Two advances that read the same value, and a `set` back from what they make of it. -/
def sampleEvents : List ClockEvent :=
  [.invoked 0 (.advance ⟨5⟩), .invoked 1 (.advance ⟨7⟩), .loaded 0, .loaded 1,
    .swapped 1 (.advance ⟨7⟩) 0 7, .refused 0, .swapped 0 (.advance ⟨5⟩) 7 12,
    .returned 0 (.advance ⟨5⟩) (.wrote 7 12), .returned 1 (.advance ⟨7⟩) (.wrote 0 7),
    .invoked 2 (.set ⟨3⟩), .loaded 2, .returned 2 (.set ⟨3⟩) (.gaveUp 12)]

theorem sample_runs : ∃ c : FakeClock, FakeClock.Runs ⟨0⟩ sampleEvents c ∧ c.reg = 12 := by
  have h₀ : FakeClock.Runs ⟨0⟩ [] (FakeClock.new ⟨0⟩) := .refl
  have h₁ := h₀.snoc (.of 0 (.invoke (.advance ⟨5⟩)))
  have h₂ := h₁.snoc (.of 1 (.invoke (.advance ⟨7⟩)))
  have h₃ := h₂.snoc (.of 0 .load)
  have h₄ := h₃.snoc (.of 1 .load)
  have h₅ := h₄.snoc (.of 1 (.swap (show attempt (.advance ⟨7⟩) 0 = some 7 by decide)))
  have h₆ := h₅.snoc (.of 0 (.refuse (show attempt (.advance ⟨5⟩) 0 = some 5 by decide)
    (by decide)))
  have h₇ := h₆.snoc (.of 0 (.swap (show attempt (.advance ⟨5⟩) 7 = some 12 by decide)))
  have h₈ := h₇.snoc (.of 0 .ret)
  have h₉ := h₈.snoc (.of 1 .ret)
  have h₁₀ := h₉.snoc (.of 2 (.invoke (.set ⟨3⟩)))
  have h₁₁ := h₁₀.snoc (.of 2 .load)
  have h₁₂ := h₁₁.snoc (.of 2 (.giveUp (by decide)))
  exact ⟨_, h₁₂, rfl⟩

/-- The failed `set` of the sample was given a target below a value that the clock had had. -/
theorem fakeClock_interleavings_sample :
    ∃ c : FakeClock, FakeClock.Runs ⟨0⟩ sampleEvents c ∧ c.reg = 12 ∧
      writesOf 2 sampleEvents = [] ∧
      ∃ current, timeToNanos ⟨3⟩ < current ∧
        Reached attempt (FakeClock.new ⟨0⟩) sampleEvents current := by
  obtain ⟨c, hruns, hreg⟩ := sample_runs
  have hret : .returned 2 (.set ⟨3⟩) (.gaveUp 12) ∈ sampleEvents := by decide
  obtain ⟨hw, -, current, -, hlt, hreached⟩ :=
    ((fakeClock_interleavings hruns).2.2.2.2 2 ⟨3⟩ (.gaveUp 12) hret).2 _ rfl
  exact ⟨c, hruns, hreg, hw, current, hlt, hreached⟩

end Clock
