import MtcCa.Clock.FakeClock
import MtcCa.Lib.Watch

/-! Sleepers on the fake clock (`crates/clock/src/fake.rs`, `crates/clock/src/tokio.rs`). The tick
channel is a version that a call of `advance` or `set` bumps before it returns; `sleep_until`
subscribes, and then looks at the clock until its deadline is there. -/
namespace Clock

open CasLoop Cloud Transition
open Watch (Waiter)

/-- `sleep_until` is over once the clock is not before the deadline. -/
def Due (deadline : SystemTime) (nanos : UInt64) : Prop := ¬ nanosToTime nanos < deadline

instance (deadline : SystemTime) (nanos : UInt64) : Decidable (Due deadline nanos) :=
  inferInstanceAs (Decidable (¬ _))

/-- The clock, its calls and its sleepers. -/
abbrev SleepWorld : Type := Watch.State UInt64 ClockOp SystemTime

abbrev SleepEvent : Type := Watch.Event UInt64 ClockOp SystemTime

abbrev SleepStep : SleepWorld → SleepEvent → SleepWorld → Prop := Watch.Step attempt Due

namespace SleepWorld

def new (start : SystemTime) : SleepWorld := Watch.State.init (timeToNanos start)

def now (w : SleepWorld) : SystemTime := nanosToTime w.cell.reg

end SleepWorld

variable {start deadline : SystemTime} {w w' : SleepWorld} {events later : List SleepEvent} {j : ℕ}

theorem due_iff : Due deadline w.cell.reg ↔ deadline ≤ w.now := not_lt

theorem nanosToTime_mono {a b : UInt64} (h : a ≤ b) : nanosToTime a ≤ nanosToTime b := by
  change (a.toNat : ℤ) ≤ (b.toNat : ℤ)
  exact_mod_cast UInt64.le_iff_toNat_le.mp h

/-- The clock does not go back, so what is due stays due. -/
theorem steady_due : Watch.Steady attempt Due := by
  intro d o v v' hnext hdue hlt
  exact hdue ((nanosToTime_mono (le_of_attempt hnext)).trans_lt hlt)

/-- Sleeping on the fake clock, under every interleaving of the steps of any number of `advance`,
`set` and `sleep_until` calls: no sleeper is done before its deadline; once the deadline is there
each of its own steps brings a sleeper nearer and two are enough, whatever the others do in
between; and no wakeup is lost, for when no call stands between its write and its notification
such a sleeper can always take these steps. -/
theorem sleepers_wake (h : Trace SleepStep (SleepWorld.new start) events w) :
    (∀ j deadline, w.waiters j = .done deadline → deadline ≤ w.now) ∧
    (∀ j deadline, (w.waiters j).target = some deadline → deadline ≤ w.now →
      ∀ later w', Trace SleepStep w later w' → .leave j ∉ later →
        (w'.waiters j).rounds + later.countP (Watch.Event.own j) = (w.waiters j).rounds ∧
        (2 ≤ later.countP (Watch.Event.own j) → w'.waiters j = .done deadline)) ∧
    (¬ Watch.Untold w.cell → ∀ j deadline, (w.waiters j).target = some deadline →
      deadline ≤ w.now → ∃ later w', Trace SleepStep w later w' ∧
        (∀ e ∈ later, e.own j = true) ∧ later.length ≤ 2 ∧ w'.waiters j = .done deadline ∧
        w'.now = w.now) := by
  have hvigilant := Watch.vigilant_trace h (Watch.vigilant_init _)
  refine ⟨?_, ?_, ?_⟩
  · intro j deadline hdone
    refine due_iff.mp (Watch.done_trace steady_due h ?_ j deadline hdone)
    rintro i d ⟨⟩
  · intro j deadline htarget hdue later w' hlater hstay
    obtain ⟨htarget', hrounds⟩ :=
      Watch.rounds_trace steady_due hlater (due_iff.mpr hdue) htarget hstay
    refine ⟨hrounds, fun htwo => Watch.Waiter.eq_done htarget' ?_⟩
    have hle := (w.waiters j).rounds_le
    omega
  · intro htold j deadline htarget hdue
    obtain ⟨later, w', hlater, hown, hdone, hcell, hlen⟩ :=
      Watch.exists_done hvigilant htold (due_iff.mpr hdue) htarget
    exact ⟨later, w', hlater, hown, hlen, hdone, by rw [SleepWorld.now, hcell]; rfl⟩

/-- The steps of one call that nobody gets in the way of. -/
def callEvents (o : ClockOp) (old new : UInt64) : List SleepEvent :=
  [.cell (.invoked 0 o), .cell (.loaded 0), .cell (.swapped 0 o old new),
    .cell (.returned 0 o (.wrote old new))]

theorem exists_called {o : ClockOp} {new : UInt64} (hidle : ∀ i, w.cell.calls i = .idle)
    (hnext : attempt o w.cell.reg = some new) :
    ∃ w', Trace SleepStep w (callEvents o w.cell.reg new) w' ∧ w'.waiters = w.waiters ∧
      w'.version = w.version + 1 ∧ w'.cell.reg = new ∧ ¬ Watch.Untold w'.cell := by
  have hinvoke : CasLoop.Step attempt w.cell (.invoked 0 o)
      (w.cell.update 0 w.cell.reg (.invoked o)) := .of 0 (by rw [hidle 0]; exact .invoke o)
  have h₁ : Trace SleepStep w [.cell (.invoked 0 o)] _ := .snoc .refl (.cell hinvoke)
  have h₂ := h₁.snoc (.cell (.of 0 .load))
  have h₃ := h₂.snoc (.cell (.of 0 (.swap hnext)))
  have h₄ := h₃.snoc (.cell (.of 0 .ret))
  refine ⟨_, h₄, rfl, rfl, rfl, ?_⟩
  rintro ⟨i, o', old, new', hi⟩
  by_cases h : i = 0
  · subst h
    cases hi
  · simp [CasLoop.State.update, Function.update_of_ne h, hidle i] at hi

/-- One sleeper falls asleep before a call advances the clock past its deadline. -/
def sleepEvents : List SleepEvent :=
  [.subscribe 0 ⟨5⟩, .look 0] ++ callEvents (.advance ⟨7⟩) 0 7

theorem sleepEvents_run : ∃ w, Trace SleepStep (SleepWorld.new ⟨0⟩) sleepEvents w ∧
    w.waiters 0 = .asleep ⟨5⟩ 0 ∧ w.waiters 1 = .idle ∧ w.now = ⟨7⟩ ∧
      ¬ Watch.Untold w.cell := by
  have h₁ : Trace SleepStep (SleepWorld.new ⟨0⟩) [.subscribe 0 ⟨5⟩] _ :=
    .snoc .refl (.subscribe _ rfl)
  have h₂ := h₁.snoc (.sleep (Watch.State.put_self ..) (show ¬ Due ⟨5⟩ 0 by decide))
  obtain ⟨w, hcalled, hwaiters, -, hreg, htold⟩ :=
    exists_called (w := (((SleepWorld.new ⟨0⟩).put 0 (.looking ⟨5⟩ 0)).put 0 (.asleep ⟨5⟩ 0)))
      (fun _ => rfl) (show attempt (.advance ⟨7⟩) 0 = some 7 by decide)
  refine ⟨w, h₂.append hcalled, ?_, ?_, ?_, htold⟩
  · rw [hwaiters]
    rfl
  · rw [hwaiters]
    rfl
  · rw [SleepWorld.now, hreg]
    rfl

/-- The sleeper of the sample wakes, without a further step of any call. -/
theorem sleepers_wake_sample : ∃ w later w',
    Trace SleepStep (SleepWorld.new ⟨0⟩) sleepEvents w ∧ w.waiters 0 = .asleep ⟨5⟩ 0 ∧
      Trace SleepStep w later w' ∧ (∀ e ∈ later, e.own 0 = true) ∧
      w'.waiters 0 = .done ⟨5⟩ := by
  obtain ⟨w, hrun, hasleep, -, hnow, htold⟩ := sleepEvents_run
  obtain ⟨later, w', hlater, hown, -, hdone, -⟩ := (sleepers_wake hrun).2.2 htold 0 ⟨5⟩
    (by rw [hasleep]; rfl) (by rw [hnow]; decide)
  exact ⟨w, later, w', hrun, hasleep, hlater, hown, hdone⟩

end Clock
