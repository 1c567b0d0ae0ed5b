import MtcCa.Clock.Sleepers
import MtcCa.Intake.Batch

/-! The cadence ticker on the fake clock (`crates/clock/src/tokio.rs`): it keeps its schedule under
every interleaving, and catches up when the clock has jumped over several ticks. -/
namespace Clock

open CaService (checkedAdd checkedAdd_eq_some)
open Cloud Transition
open Watch (Vigilant)

/-- A ticker. `next` is absent once the schedule has overflowed. -/
structure Interval where
  period : Duration
  next : Option SystemTime
deriving DecidableEq

/-- A ticker whose first tick is due one period from `now`. -/
def Interval.new (now : SystemTime) (period : Duration) : Interval :=
  ⟨period, checkedAdd now period⟩

/-- A ticker whose first tick is due at `firstTick`. -/
def Interval.newAt (firstTick : SystemTime) (period : Duration) : Interval :=
  ⟨period, some firstTick⟩

/-- The clock with its sleepers, and the ticker of one task. -/
structure TickWorld where
  sleep : SleepWorld
  interval : Interval

inductive TickEvent where
  | sleep (e : SleepEvent)
  | tick (scheduled : SystemTime)

/-- The steps with a ticker that sleeps as the sleeper `j`. A call of `tick` starts by sleeping
until the next scheduled tick; it may be dropped on the way, and called again. -/
inductive TickStep (j : ℕ) (s : TickWorld) : TickEvent → TickWorld → Prop where
  | sleep {e : SleepEvent} {w : SleepWorld} (h : SleepStep s.sleep e w)
      (hown : ∀ d, e = .subscribe j d → s.interval.next = some d) :
      TickStep j s (.sleep e) { s with sleep := w }
  | tick {deadline d : SystemTime} (hnext : s.interval.next = some deadline)
      (hdone : s.sleep.waiters j = .done d) :
      TickStep j s (.tick deadline)
        ⟨s.sleep.put j .idle, { s.interval with next := checkedAdd deadline s.interval.period }⟩

/-- The scheduled times of the ticks that a run returns. -/
def ticks (events : List TickEvent) : List SystemTime :=
  events.filterMap (fun
    | .tick scheduled => some scheduled
    | .sleep _ => none)

/-- The time of the `k`-th tick. -/
def scheduled (first : SystemTime) (period : Duration) (k : ℕ) : SystemTime :=
  ⟨first.nanos + k * period.nanos⟩

/-- The steps of the ticker's own task. -/
def TickEvent.own (j : ℕ) : TickEvent → Bool
  | .tick _ => true
  | .sleep e => e.task j

variable {j k m : ℕ} {s s' : TickWorld} {e : TickEvent} {events : List TickEvent}
  {first start deadline : SystemTime} {period : Duration} {interval : Interval}

/-- Nothing is lost on the clock, and the ticker sleeps for its next tick only. -/
structure Waits (j : ℕ) (s : TickWorld) : Prop where
  vigilant : Vigilant Due s.sleep
  target : ∀ d, (s.sleep.waiters j).target = some d → s.interval.next = some d
  due : ∀ i d, s.sleep.waiters i = .done d → Due d s.sleep.cell.reg

/-- A ticker may be made at any time. -/
theorem waits_new {before : List SleepEvent} {w : SleepWorld}
    (h : Trace SleepStep (SleepWorld.new start) before w) (hidle : w.waiters j = .idle) :
    Waits j ⟨w, interval⟩ where
  vigilant := Watch.vigilant_trace h (Watch.vigilant_init _)
  target := by
    intro d hd
    rw [hidle] at hd
    cases hd
  due := Watch.done_trace steady_due h (by rintro i d ⟨⟩)

theorem waits_step (h : TickStep j s e s') (hs : Waits j s) : Waits j s' := by
  cases h with
  | sleep hstep hown =>
    refine ⟨Watch.vigilant_step hstep hs.vigilant, ?_, Watch.done_step steady_due hstep hs.due⟩
    intro d hd
    obtain hbefore | rfl := Watch.target_step hstep hd
    · exact hs.target d hbefore
    · exact hown d rfl
  | tick hnext hdone =>
    refine ⟨hs.vigilant.put (by rintro d seen ⟨⟩) (by rintro d seen ⟨⟩), ?_, ?_⟩
    · intro d hd
      rw [Watch.State.put_self] at hd
      cases hd
    · intro i d hd
      obtain ⟨⟨⟩⟩ | hbefore := Watch.State.put_eq_done hd
      exact hs.due i d hbefore

theorem ticks_append (a b : List TickEvent) : ticks (a ++ b) = ticks a ++ ticks b :=
  List.filterMap_append ..

theorem ticks_sleep (e : SleepEvent) : ticks [.sleep e] = [] := rfl

theorem ticks_tick (d : SystemTime) : ticks [.tick d] = [d] := rfl

/-- What the ticker sleeps for after `k` ticks. -/
def nextAt (first : SystemTime) (period : Duration) : ℕ → Option SystemTime
  | 0 => some first
  | k + 1 => (nextAt first period k).bind (fun d => checkedAdd d period)

theorem nextAt_eq_some {d : SystemTime} (h : nextAt first period k = some d) :
    d = scheduled first period k := by
  induction k generalizing d with
  | zero =>
    cases h
    simp [scheduled]
  | succ k ih =>
    obtain ⟨d', hd', hnext⟩ := Option.bind_eq_some_iff.mp h
    rw [checkedAdd_eq_some hnext, ih hd', scheduled, scheduled, SystemTime.mk.injEq]
    push_cast
    ring

/-- What a run of the ticker has kept to. -/
structure OnSchedule (j : ℕ) (first : SystemTime) (period : Duration) (events : List TickEvent)
    (s : TickWorld) : Prop where
  waits : Waits j s
  period_eq : s.interval.period = period
  next_eq : s.interval.next = nextAt first period (ticks events).length
  ticks_eq : ticks events = (List.range (ticks events).length).map (scheduled first period)
  reached : ∀ d ∈ ticks events, Due d s.sleep.cell.reg

theorem onSchedule_step (h : TickStep j s e s') (hs : OnSchedule j first period events s) :
    OnSchedule j first period (events ++ [e]) s' := by
  have hwaits := waits_step h hs.waits
  cases h with
  | sleep hstep hown =>
    refine ⟨hwaits, hs.period_eq, ?_, ?_, ?_⟩ <;>
      rw [ticks_append, ticks_sleep, List.append_nil]
    · exact hs.next_eq
    · exact hs.ticks_eq
    · intro d hd
      exact Watch.ready_step steady_due hstep (hs.reached d hd)
  | @tick deadline d hnext hdone =>
    have hsame : d = deadline := by
      have htarget := hs.waits.target d (by rw [hdone]; rfl)
      rw [hnext] at htarget
      exact (Option.some.inj htarget).symm
    subst hsame
    rw [hs.next_eq] at hnext
    refine ⟨hwaits, hs.period_eq, ?_, ?_, ?_⟩ <;> rw [ticks_append, ticks_tick]
    · rw [List.length_append, List.length_singleton, nextAt, hnext, Option.bind_some, hs.period_eq]
    · rw [List.length_append, List.length_singleton, List.range_succ, List.map_append,
        List.map_singleton, ← hs.ticks_eq, nextAt_eq_some hnext]
    · intro d' hd'
      obtain hbefore | hlast := List.mem_append.mp hd'
      · exact hs.reached d' hbefore
      · rw [List.mem_singleton.mp hlast]
        exact hs.waits.due j d hdone

/-- What lies within the clock's range fits a `SystemTime`. -/
theorem checkedAdd_of_le {w : SleepWorld} {t : SystemTime}
    (h : t.nanos + period.nanos ≤ w.now.nanos) :
    checkedAdd t period = some ⟨t.nanos + period.nanos⟩ := by
  have hnow : w.now.nanos < 2 ^ 64 := by
    change (w.cell.reg.toNat : ℤ) < 2 ^ 64
    exact_mod_cast w.cell.reg.toNat_lt
  rw [checkedAdd, if_pos (by linarith)]

theorem nextAt_of_le {w : SleepWorld} (h : scheduled first period m ≤ w.now) (hk : k ≤ m) :
    nextAt first period k = some (scheduled first period k) := by
  have hm : first.nanos + m * period.nanos ≤ w.now.nanos := h
  induction k with
  | zero => simp [nextAt, scheduled]
  | succ k ih =>
    have hmul : (k + 1) * period.nanos ≤ m * period.nanos := Nat.mul_le_mul_right _ hk
    have hsum : (scheduled first period k).nanos + period.nanos = first.nanos +
        ((k + 1 : ℕ) : ℤ) * period.nanos := by
      rw [scheduled]
      push_cast
      ring
    rw [nextAt, ih (by omega), Option.bind_some, checkedAdd_of_le (w := w), hsum, scheduled]
    rw [hsum]
    zify at hmul
    push_cast
    linarith

theorem onSchedule_run {later : List TickEvent} (hs : OnSchedule j first period events s)
    (h : Trace (TickStep j) s later s') : OnSchedule j first period (events ++ later) s' := by
  induction h with
  | refl => rwa [List.append_nil]
  | snoc _ hstep ih =>
    rw [← List.append_assoc]
    exact onSchedule_step hstep ih

/-- A run of sleepers in which the ticker subscribes for its next tick only is a run with the
ticker. -/
theorem trace_of_sleep {later : List SleepEvent} {w w' : SleepWorld}
    (h : Trace SleepStep w later w')
    (hown : ∀ e ∈ later, ∀ d, e = .subscribe j d → interval.next = some d) :
    Trace (TickStep j) ⟨w, interval⟩ (later.map TickEvent.sleep) ⟨w', interval⟩ := by
  induction h with
  | refl => exact .refl
  | snoc _ hstep ih =>
    rw [List.map_append]
    refine .snoc (ih (fun e he => hown e (List.mem_append_left _ he))) (.sleep hstep ?_)
    exact hown _ (List.mem_append_right _ (List.mem_singleton_self _))

theorem ticks_map_sleep (later : List SleepEvent) : ticks (later.map TickEvent.sleep) = [] := by
  rw [ticks, List.filterMap_map, List.filterMap_eq_nil_iff]
  intro e he
  rfl

/-- A tick that is due can be returned by the ticker's own steps. -/
theorem exists_tick (hs : Waits j s) (htold : ¬ Watch.Untold s.sleep.cell)
    (hnext : s.interval.next = some deadline) (hdue : Due deadline s.sleep.cell.reg) :
    ∃ later s', Trace (TickStep j) s later s' ∧ (∀ e ∈ later, e.own j = true) ∧
      ticks later = [deadline] ∧ s'.sleep.cell = s.sleep.cell := by
  have htarget : ∀ d, (s.sleep.waiters j).target = some d → d = deadline := by
    intro d hd
    rw [hs.target d hd] at hnext
    exact Option.some.inj hnext
  obtain ⟨later, w, hlater, hown, hdone, hcell⟩ :=
    Watch.exists_waited hs.vigilant htold hdue htarget
  have hsleep : Trace (TickStep j) s (later.map TickEvent.sleep) ⟨w, s.interval⟩ :=
    trace_of_sleep hlater (fun e he d hd => (hown e he).2.2 d hd ▸ hnext)
  have htick : TickStep j ⟨w, s.interval⟩ (.tick deadline) _ := .tick hnext hdone
  refine ⟨later.map TickEvent.sleep ++ [.tick deadline], _, hsleep.snoc htick, ?_, ?_, hcell⟩
  · simp only [List.mem_append, List.mem_map, List.mem_singleton]
    rintro e (⟨e', he', rfl⟩ | rfl)
    · exact (hown e' he').1
    · rfl
  · rw [ticks_append, ticks_map_sleep, ticks_tick, List.nil_append]

/-- The ticker can catch up with a clock that has jumped over ticks, by its own steps. -/
theorem exists_ticks (hs : OnSchedule j first period events s)
    (htold : ¬ Watch.Untold s.sleep.cell) (hm : scheduled first period m ≤ s.sleep.now) :
    ∃ later s', Trace (TickStep j) s later s' ∧ (∀ e ∈ later, e.own j = true) ∧
      s'.sleep.cell = s.sleep.cell ∧ m + 1 ≤ (ticks (events ++ later)).length := by
  induction hleft : m + 1 - (ticks events).length generalizing events s with
  | zero => exact ⟨[], s, .refl, by simp, rfl, by rw [List.append_nil]; omega⟩
  | succ left ih =>
    have hnext := hs.next_eq
    rw [nextAt_of_le hm (by omega)] at hnext
    have hdue : Due (scheduled first period (ticks events).length) s.sleep.cell.reg := by
      refine due_iff.mpr (le_trans ?_ hm)
      have hmul : (ticks events).length * period.nanos ≤ m * period.nanos :=
        Nat.mul_le_mul_right _ (by omega)
      change first.nanos + _ ≤ first.nanos + _
      zify at hmul
      linarith
    obtain ⟨later, u, hlater, hown, hticks, hcell⟩ := exists_tick hs.waits htold hnext hdue
    have hu := onSchedule_run hs hlater
    have hlen : (ticks (events ++ later)).length = (ticks events).length + 1 := by
      rw [ticks_append, hticks, List.length_append, List.length_singleton]
    have hnow : u.sleep.now = s.sleep.now := by rw [SleepWorld.now, hcell]; rfl
    obtain ⟨more, s', hmore, hown', hcell', hcount⟩ :=
      ih hu (hcell ▸ htold) (hnow ▸ hm) (by omega)
    refine ⟨later ++ more, s', hlater.append hmore, ?_, hcell'.trans hcell, ?_⟩
    · exact List.forall_mem_append.mpr ⟨hown, hown'⟩
    · rwa [← List.append_assoc]

/-- A ticker keeps its schedule under every interleaving with calls that move the clock and with
other sleepers, and also when its calls are dropped and made again: its ticks are the first one
and then one each period, none left out, repeated or moved; none is returned before the clock is
there; and when the clock has jumped over ticks, and no call stands between its write and its
notification, the ticker can return them all without the clock or anyone else moving. -/
theorem interval_keeps_schedule {before : List SleepEvent} {w : SleepWorld}
    (h₀ : Trace SleepStep (SleepWorld.new start) before w) (hidle : w.waiters j = .idle)
    (hfirst : interval.next = some first)
    (h : Trace (TickStep j) ⟨w, interval⟩ events s) :
    ticks events = (List.range (ticks events).length).map (scheduled first interval.period) ∧
    (∀ d ∈ ticks events, d ≤ s.sleep.now) ∧
    (¬ Watch.Untold s.sleep.cell → ∀ m, scheduled first interval.period m ≤ s.sleep.now →
      ∃ later s', Trace (TickStep j) s later s' ∧ (∀ e ∈ later, e.own j = true) ∧
        s'.sleep.now = s.sleep.now ∧ m + 1 ≤ (ticks (events ++ later)).length) := by
  have hnew : OnSchedule j first interval.period [] ⟨w, interval⟩ :=
    ⟨waits_new h₀ hidle, rfl, hfirst, rfl, by rintro d ⟨⟩⟩
  have hs := onSchedule_run hnew h
  rw [List.nil_append] at hs
  refine ⟨hs.ticks_eq, fun d hd => due_iff.mp (hs.reached d hd), ?_⟩
  intro htold m hm
  obtain ⟨later, s', hlater, hown, hcell, hcount⟩ := exists_ticks hs htold hm
  exact ⟨later, s', hlater, hown, by rw [SleepWorld.now, hcell]; rfl, hcount⟩

/-- With the clock at 7, a ticker due at 5 and each nanosecond from then on has three ticks to
catch up with. -/
theorem interval_keeps_schedule_sample : ∃ w later s',
    Trace SleepStep (SleepWorld.new ⟨0⟩) sleepEvents w ∧ w.now = ⟨7⟩ ∧
      Trace (TickStep 1) ⟨w, .newAt ⟨5⟩ ⟨1⟩⟩ later s' ∧ s'.sleep.now = ⟨7⟩ ∧
      3 ≤ (ticks later).length := by
  obtain ⟨w, hrun, -, hidle, hnow, htold⟩ := sleepEvents_run
  have hstart : Trace (TickStep 1) ⟨w, .newAt ⟨5⟩ ⟨1⟩⟩ [] _ := .refl
  obtain ⟨later, s', hlater, -, hnow', hcount⟩ :=
    (interval_keeps_schedule hrun hidle rfl hstart).2.2 htold 2 (by rw [hnow]; decide)
  exact ⟨w, later, s', hrun, hnow, hlater, hnow'.trans hnow, hcount⟩

end Clock
