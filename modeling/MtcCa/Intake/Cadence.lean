import MtcCa.Clock.Interval
import MtcCa.Intake.ExactlyOnce

/-! The batch builder on the fake clock (`crates/ca-service/src/batch/builder.rs`,
`crates/clock/src/tokio.rs`): why a batch is cut, and that a batch past its cadence gets out. -/
namespace CaService

open Clock (Due SleepEvent SleepStep SleepWorld)
open Cloud (SystemTime)
open Transition
open Watch (Vigilant Waiter)

/-- The queue with its builder, and the clock the builder sleeps on. -/
structure TimedWorld (Entry : Type) where
  sleep : SleepWorld
  intake : World Entry

inductive TimedEvent (Entry : Type) where
  | sleep (e : SleepEvent)
  /-- A call takes its first entry, or finds the stream at its end, and reads the clock. -/
  | first (received : Option (BatchEntry Entry)) (now : SystemTime)
      (out : Option (Option (Batch Entry)))
  | intake (e : Event Entry)

variable {Entry : Type}

/-- The steps with a builder that sleeps as the sleeper `j`. Each round of the accumulation loop
makes a new sleep until the deadline, and drops it when an entry comes first. -/
inductive TimedStep (j : ℕ) (s : TimedWorld Entry) :
    TimedEvent Entry → TimedWorld Entry → Prop where
  | sleep {e : SleepEvent} {w : SleepWorld} (h : SleepStep s.sleep e w)
      (hown : ∀ d, e = .subscribe j d →
        ∃ entries, s.intake.phase = .accumulating entries (some d))
      (hstay : e ≠ .leave j) :
      TimedStep j s (.sleep e) { s with sleep := w }
  | queue {e : Event Entry} {w : World Entry} (h : Step s.intake e w)
      (hout : ∀ out, e ≠ .resume out) :
      TimedStep j s (.intake e) { s with intake := w }
  | first {received : Option (BatchEntry Entry)} {channel : Channel (BatchEntry Entry)}
      (hphase : s.intake.phase = .awaitingFirst)
      (hrecv : s.intake.channel.recv s.intake.sender.isNone = some (received, channel)) :
      TimedStep j s
        (.first received s.sleep.now
          (BatchBuilder.onFirst s.intake.config s.sleep.now received).2)
        { s with
          intake := s.intake.resumed channel
            (BatchBuilder.onFirst s.intake.config s.sleep.now received) }
  | received {entries : List (BatchEntry Entry)} {deadline : Option SystemTime}
      {received : Option (BatchEntry Entry)} {channel : Channel (BatchEntry Entry)}
      (hphase : s.intake.phase = .accumulating entries deadline)
      (hrecv : s.intake.channel.recv s.intake.sender.isNone = some (received, channel)) :
      TimedStep j s
        (.intake (.resume (BatchBuilder.onReceived s.intake.config entries deadline received).2))
        ⟨s.sleep.put j .idle, s.intake.resumed channel
          (BatchBuilder.onReceived s.intake.config entries deadline received)⟩
  | timeout {entries : List (BatchEntry Entry)} {deadline d : SystemTime}
      (hphase : s.intake.phase = .accumulating entries (some deadline))
      (hdone : s.sleep.waiters j = .done d) :
      TimedStep j s
        (.intake (.resume (BatchBuilder.onReceived s.intake.config entries (some deadline) none).2))
        ⟨s.sleep.put j .idle, s.intake.resumed s.intake.channel
          (BatchBuilder.onReceived s.intake.config entries (some deadline) none)⟩

namespace TimedEvent

/-- What a step is without the clock. -/
def untimed : TimedEvent Entry → List (Event Entry)
  | .sleep _ => []
  | .first _ _ out => [.resume out]
  | .intake e => [e]

/-- The first entry of a batch, with the reading of the clock at it. -/
def taken : TimedEvent Entry → Option (BatchEntry Entry × SystemTime)
  | .first (some entry) now _ => some (entry, now)
  | _ => none

/-- The batches a step emits. -/
def batches (e : TimedEvent Entry) : List (Batch Entry) := emitted e.untimed

/-- The steps of the builder's own task. -/
def own (j : ℕ) : TimedEvent Entry → Bool
  | .sleep e => e.task j
  | .first _ _ _ | .intake (.resume _) => true
  | .intake _ => false

end TimedEvent

/-- What was taken as a first entry last, and when. -/
def firstTaken (events : List (TimedEvent Entry)) : Option (BatchEntry Entry × SystemTime) :=
  (events.filterMap TimedEvent.taken).getLast?

variable {j : ℕ} {s s' : TimedWorld Entry} {e : TimedEvent Entry}
  {events later : List (TimedEvent Entry)} {entries : List (BatchEntry Entry)}
  {deadline : Option SystemTime} {batch : Batch Entry} {d now : SystemTime} {config : BatchConfig}

/-- Without the clock a timed step is a step of the queue and the builder. -/
theorem untimed_step (h : TimedStep j s e s') : Trace Step s.intake e.untimed s'.intake := by
  cases h with
  | sleep => exact .refl
  | queue h => exact .snoc .refl h
  | first hphase hrecv => exact .snoc .refl (.first hphase hrecv)
  | received hphase hrecv => exact .snoc .refl (.received hphase hrecv)
  | timeout hphase => exact .snoc .refl (.timeout hphase)

theorem untimed_trace (h : Trace (TimedStep j) s events s') :
    Trace Step s.intake (events.flatMap TimedEvent.untimed) s'.intake := by
  induction h with
  | refl => exact .refl
  | snoc _ hstep ih =>
    rw [List.flatMap_append, List.flatMap_singleton]
    exact ih.append (untimed_step hstep)

theorem firstTaken_concat (events : List (TimedEvent Entry)) (e : TimedEvent Entry) :
    firstTaken (events ++ [e]) = (e.taken <|> firstTaken events) := by
  unfold firstTaken
  cases h : e.taken with
  | none => simp [h]
  | some taken => simp [h]

/-- The builder's deadline is one cadence from its first entry, it sleeps for that deadline only,
and nothing is lost on the clock. -/
structure Timed (j : ℕ) (events : List (TimedEvent Entry)) (s : TimedWorld Entry) : Prop where
  vigilant : Vigilant Due s.sleep
  due : ∀ i d, s.sleep.waiters i = .done d → Due d s.sleep.cell.reg
  target : ∀ d, (s.sleep.waiters j).target = some d →
    ∃ entries, s.intake.phase = .accumulating entries (some d)
  deadline : ∀ entries deadline, s.intake.phase = .accumulating entries deadline →
    ∃ entry now, firstTaken events = some (entry, now) ∧ entries.head? = some entry ∧
      deadline = checkedAdd now s.intake.config.cadence
  phase_open : s.intake.phase.Open s.intake.config

/-- What goes on accumulating keeps its deadline. -/
theorem accumulate_deadline {deadline' : Option SystemTime}
    {held : List (BatchEntry Entry)}
    (h : (BatchBuilder.accumulate config entries deadline).1 = .accumulating held deadline') :
    held = entries ∧ deadline' = deadline := by
  unfold BatchBuilder.accumulate at h
  split at h <;> cases h
  exact ⟨rfl, rfl⟩

theorem onReceived_deadline {deadline' : Option SystemTime} {received : Option (BatchEntry Entry)}
    {held : List (BatchEntry Entry)}
    (h : (BatchBuilder.onReceived config entries deadline received).1 =
      .accumulating held deadline') :
    (∃ entry, received = some entry ∧ held = entries ++ [entry]) ∧ deadline' = deadline := by
  cases received with
  | none => cases h
  | some entry =>
    obtain ⟨rfl, rfl⟩ := accumulate_deadline h
    exact ⟨⟨entry, rfl, rfl⟩, rfl⟩

/-- A step of the queue alone leaves a call where it is, or starts one. -/
theorem phase_queue {w w' : World Entry} {e : Event Entry} (h : Step w e w')
    (hout : ∀ out, e ≠ .resume out) :
    w'.config = w.config ∧ (w'.phase = w.phase ∨ w.phase = .idle ∧ w'.phase = .awaitingFirst) := by
  cases e with
  | submit item result =>
    have hsubmits := submits_of_step h
    exact ⟨hsubmits.config, Or.inl hsubmits.phase⟩
  | resume out => exact absurd rfl (hout out)
  | nextBatch =>
    cases h with
    | nextBatch hidle => exact ⟨rfl, Or.inr ⟨hidle, rfl⟩⟩
  | _ =>
    cases h
    exact ⟨rfl, Or.inl rfl⟩

theorem timed_step (h : TimedStep j s e s') (hs : Timed j events s) :
    Timed j (events ++ [e]) s' := by
  have hopen : s'.intake.phase.Open s'.intake.config :=
    (untimed_step h).invariant (P := fun w => w.phase.Open w.config) (fun _ _ _ => open_step)
      hs.phase_open
  -- a round that is over leaves no sleep behind
  have hdropped : ∀ w : World Entry, w.phase.Open w.config →
      (∀ entries deadline, w.phase = .accumulating entries deadline →
        ∃ entry now, firstTaken (events ++ [e]) = some (entry, now) ∧
          entries.head? = some entry ∧ deadline = checkedAdd now w.config.cadence) →
      Timed j (events ++ [e]) ⟨s.sleep.put j .idle, w⟩ := by
    intro w hwopen hdeadline
    refine ⟨hs.vigilant.put (by rintro d seen ⟨⟩) (by rintro d seen ⟨⟩), ?_, ?_, hdeadline, hwopen⟩
    · intro i d hd
      obtain ⟨⟨⟩⟩ | hbefore := Watch.State.put_eq_done hd
      exact hs.due i d hbefore
    · intro d hd
      rw [Watch.State.put_self] at hd
      cases hd
  cases h with
  | sleep hstep hown hstay =>
    refine ⟨Watch.vigilant_step hstep hs.vigilant,
      Watch.done_step Clock.steady_due hstep hs.due, ?_, ?_, hs.phase_open⟩
    · intro d hd
      obtain hbefore | rfl := Watch.target_step hstep hd
      · exact hs.target d hbefore
      · exact hown d rfl
    · rw [firstTaken_concat]
      exact hs.deadline
  | queue hstep hout =>
    obtain ⟨hconfig, hphase⟩ := phase_queue hstep hout
    refine ⟨hs.vigilant, hs.due, ?_, ?_, hopen⟩
    · intro d hd
      obtain ⟨entries, hentries⟩ := hs.target d hd
      obtain hsame | ⟨hidle, -⟩ := hphase
      · exact ⟨entries, hsame.trans hentries⟩
      · rw [hentries] at hidle
        cases hidle
    · intro entries deadline hentries
      rw [firstTaken_concat]
      obtain hsame | ⟨-, hwaiting⟩ := hphase
      · exact hconfig ▸ hs.deadline entries deadline (hsame.symm.trans hentries)
      · rw [hwaiting] at hentries
        cases hentries
  | @first received channel hphase hrecv =>
    refine ⟨hs.vigilant, hs.due, ?_, ?_, hopen⟩
    · intro d hd
      obtain ⟨entries, hentries⟩ := hs.target d hd
      rw [hphase] at hentries
      cases hentries
    · intro entries deadline hentries
      rw [firstTaken_concat]
      cases received with
      | none => cases hentries
      | some entry =>
        obtain ⟨hheld, hdeadline⟩ := accumulate_deadline hentries
        exact ⟨entry, s.sleep.now, rfl, by rw [hheld]; rfl, hdeadline⟩
  | received hphase hrecv =>
    refine hdropped _ hopen ?_
    intro entries deadline hentries
    obtain ⟨⟨more, -, rfl⟩, rfl⟩ := onReceived_deadline hentries
    obtain ⟨entry, now, htaken, hhead, hdeadline⟩ := hs.deadline _ _ hphase
    rw [firstTaken_concat]
    exact ⟨entry, now, htaken, by rw [List.head?_append, hhead]; rfl, hdeadline⟩
  | timeout hphase hdone =>
    refine hdropped _ hopen ?_
    intro entries deadline hentries
    cases hentries

/-- A builder may be started at any time of the clock. -/
theorem timed_new {start : SystemTime} {before : List SleepEvent} {w : SleepWorld}
    (h : Trace SleepStep (SleepWorld.new start) before w) (hidle : w.waiters j = .idle) :
    Timed j [] (⟨w, channel config⟩ : TimedWorld Entry) where
  vigilant := Watch.vigilant_trace h (Watch.vigilant_init _)
  due := Watch.done_trace Clock.steady_due h (by rintro i d ⟨⟩)
  target := by
    intro d hd
    rw [hidle] at hd
    cases hd
  deadline := by rintro entries deadline ⟨⟩
  phase_open := by rintro entries deadline ⟨⟩

theorem timed_run {start : SystemTime} {before : List SleepEvent} {w : SleepWorld}
    (h₀ : Trace SleepStep (SleepWorld.new start) before w) (hidle : w.waiters j = .idle)
    (h : Trace (TimedStep j) ⟨w, channel config⟩ events s) :
    Timed j events s ∧ s.intake.config = config :=
  ⟨h.history (P := fun events s => Timed j events s) (fun _ _ _ _ => timed_step)
    (timed_new h₀ hidle), (flow_trace (untimed_trace h)).config_eq⟩

/-! ### Why a batch is cut -/

/-- A batch that the head of the loop emits is full. -/
theorem full_of_accumulate (hle : entries.length ≤ config.maxBatchSize)
    (hb : batch ∈ returned (BatchBuilder.accumulate config entries deadline).2) :
    batch = ⟨entries⟩ ∧ batch.len = config.maxBatchSize := by
  unfold BatchBuilder.accumulate at hb
  split at hb
  · cases hb
  · next hfull =>
    obtain rfl := List.mem_singleton.mp hb
    exact ⟨rfl, le_antisymm hle (not_lt.mp hfull)⟩

theorem mem_batches {out : Option (Option (Batch Entry))} :
    batch ∈ emitted [.resume out] ↔ batch ∈ returned out := by
  simp [emitted]

/-- The builder's deadline, from the reading at its first entry. -/
theorem Timed.deadline_eq (hs : Timed j events s)
    (hphase : s.intake.phase = .accumulating entries (some d)) :
    ∃ entry now, firstTaken events = some (entry, now) ∧ entries.head? = some entry ∧
      d = ⟨now.nanos + s.intake.config.cadence.nanos⟩ := by
  obtain ⟨entry, now, htaken, hhead, hd⟩ := hs.deadline _ _ hphase
  exact ⟨entry, now, htaken, hhead, checkedAdd_eq_some hd.symm⟩

theorem reason_step (h : TimedStep j s e s') (hs : Timed j events s) (hb : batch ∈ e.batches) :
    batch.len = s.intake.config.maxBatchSize ∨
      (s.intake.sender = none ∧ s.intake.channel.buffer = []) ∨
      ∃ d, s.intake.phase = .accumulating batch.entries (some d) ∧ d ≤ s.sleep.now := by
  cases h with
  | sleep => cases hb
  | @queue e w hstep hout =>
    cases e with
    | resume out => exact absurd rfl (hout out)
    | _ => cases hb
  | @first received channel hphase hrecv =>
    cases received with
    | none => cases hb
    | some entry =>
      have hroom : [entry].length ≤ s.intake.config.maxBatchSize := s.intake.config.pos
      exact Or.inl (full_of_accumulate hroom (mem_batches.mp hb)).2
  | @received entries deadline received channel hphase hrecv =>
    obtain ⟨-, hlt⟩ := hs.phase_open entries deadline hphase
    cases received with
    | none =>
      obtain ⟨hclosed, hbuffer, -⟩ := Channel.recv_none hrecv
      exact Or.inr (Or.inl ⟨Option.isNone_iff_eq_none.mp hclosed, hbuffer⟩)
    | some entry =>
      have hroom : (entries ++ [entry]).length ≤ s.intake.config.maxBatchSize := by simpa using hlt
      exact Or.inl (full_of_accumulate hroom (mem_batches.mp hb)).2
  | @timeout entries deadline d hphase hdone =>
    obtain rfl := List.mem_singleton.mp (mem_batches.mp hb)
    obtain ⟨entries', hsame⟩ := hs.target d (by rw [hdone]; rfl)
    obtain ⟨rfl, rfl⟩ : entries = entries' ∧ deadline = d := by
      simpa using hphase.symm.trans hsame
    exact Or.inr (Or.inr ⟨deadline, hphase, Clock.due_iff.mp (hs.due j deadline hdone)⟩)

/-- Why a batch is cut, under every interleaving of submissions, a shutdown, calls that move the
clock and other sleepers: it is full, or the queue is shut down and empty, or the clock has come
to one cadence past its reading at the batch's first entry, however many entries came since. -/
theorem batch_cut_for_reason {start : SystemTime} {before : List SleepEvent} {w : SleepWorld}
    (h₀ : Trace SleepStep (SleepWorld.new start) before w) (hidle : w.waiters j = .idle)
    (h : Trace (TimedStep j) ⟨w, channel config⟩ events s) (hstep : TimedStep j s e s')
    (hb : batch ∈ e.batches) :
    batch.len = config.maxBatchSize ∨
      (s.intake.sender = none ∧ s.intake.channel.buffer = []) ∨
      ∃ entry now, firstTaken events = some (entry, now) ∧ batch.entries.head? = some entry ∧
        now.nanos + config.cadence.nanos ≤ s.sleep.now.nanos := by
  obtain ⟨hs, hconfig⟩ := timed_run h₀ hidle h
  rw [← hconfig]
  obtain hfull | hshut | ⟨d, hphase, hle⟩ := reason_step hstep hs hb
  · exact Or.inl hfull
  · exact Or.inr (Or.inl hshut)
  · obtain ⟨entry, now, htaken, hhead, rfl⟩ := hs.deadline_eq hphase
    exact Or.inr (Or.inr ⟨entry, now, htaken, hhead, hle⟩)

/-- A run of sleepers in which the builder sleeps for its deadline only is a run with the
builder. -/
theorem timed_of_sleep {slept : List SleepEvent} {w w' : SleepWorld} {q : World Entry}
    (h : Trace SleepStep w slept w')
    (hown : ∀ e ∈ slept, e ≠ .leave j ∧ ∀ d', e = .subscribe j d' → d' = d)
    (hphase : q.phase = .accumulating entries (some d)) :
    Trace (TimedStep j) ⟨w, q⟩ (slept.map TimedEvent.sleep) ⟨w', q⟩ := by
  induction h with
  | refl => exact .refl
  | snoc _ hstep ih =>
    obtain ⟨hstay, hsame⟩ := hown _ (List.mem_append_right _ (List.mem_singleton_self _))
    rw [List.map_append]
    refine .snoc (ih (fun e he => hown e (List.mem_append_left _ he))) (.sleep hstep ?_ hstay)
    intro d' hd'
    rw [hsame d' hd']
    exact ⟨entries, hphase⟩

theorem Timed.target_eq (hs : Timed j events s)
    (hphase : s.intake.phase = .accumulating entries (some d)) :
    ∀ d', (s.sleep.waiters j).target = some d' → d' = d := by
  intro d' hd'
  obtain ⟨entries', hsame⟩ := hs.target d' hd'
  rw [hphase] at hsame
  cases hsame
  rfl

/-- With nobody else moving, a builder whose deadline is there gets through its sleep. -/
theorem Timed.exists_slept (hs : Timed j events s) (htold : ¬ Watch.Untold s.sleep.cell)
    (hphase : s.intake.phase = .accumulating entries (some d)) (hdue : d ≤ s.sleep.now) :
    ∃ (slept : List SleepEvent) (w : SleepWorld),
      Trace (TimedStep j) s (slept.map TimedEvent.sleep) ⟨w, s.intake⟩ ∧
      (∀ e ∈ slept, e.task j = true) ∧ w.waiters j = .done d ∧ w.cell = s.sleep.cell := by
  obtain ⟨slept, w, hslept, hown, hdone, hcell⟩ :=
    Watch.exists_waited hs.vigilant htold (Clock.due_iff.mpr hdue) (hs.target_eq hphase)
  exact ⟨slept, w, timed_of_sleep hslept (fun e he => (hown e he).2) hphase,
    fun e he => (hown e he).1, hdone, hcell⟩

theorem sampleHolding_phase :
    sampleHolding.phase = .accumulating [sampleItem] (some ⟨3 * 10 ^ 9⟩) := by
  norm_num [sampleHolding, World.resumed, BatchBuilder.onFirst, BatchBuilder.accumulate,
    sampleConfig, checkedAdd]

/-- One entry is taken at 0, and a call then advances the clock by three seconds. -/
def timedEvents : List (TimedEvent String) :=
  [.intake (.submit sampleItem (.ok ())), .intake .nextBatch, .first (some sampleItem) ⟨0⟩ none] ++
    (Clock.callEvents (.advance ⟨3 * 10 ^ 9⟩) 0 3000000000).map TimedEvent.sleep

/-- The sample run ends with the cadence gone by, and the entry still held. -/
theorem timedEvents_run : ∃ w, Trace (TimedStep 0) ⟨SleepWorld.new ⟨0⟩, channel sampleConfig⟩
      timedEvents ⟨w, sampleHolding⟩ ∧ w.now = ⟨3 * 10 ^ 9⟩ ∧ ¬ Watch.Untold w.cell := by
  have h₁ : Trace (TimedStep 0) ⟨SleepWorld.new ⟨0⟩, channel sampleConfig⟩ _
      ⟨SleepWorld.new ⟨0⟩, sampleSubmitted⟩ := .snoc .refl (.queue .submit (by rintro out ⟨⟩))
  have h₂ : Trace (TimedStep 0) _ _ ⟨SleepWorld.new ⟨0⟩, sampleCalled⟩ :=
    h₁.snoc (.queue (.nextBatch rfl) (by rintro out ⟨⟩))
  have hfirst : TimedStep 0 ⟨SleepWorld.new ⟨0⟩, sampleCalled⟩ (.first (some sampleItem) ⟨0⟩ none)
      ⟨SleepWorld.new ⟨0⟩, sampleHolding⟩ := .first rfl rfl
  obtain ⟨w, hcalled, -, -, hreg, htold⟩ :=
    Clock.exists_called (w := SleepWorld.new ⟨0⟩) (fun _ => rfl)
      (show Clock.attempt (.advance ⟨3 * 10 ^ 9⟩) 0 = some 3000000000 by decide)
  have hcall : Trace (TimedStep 0) ⟨SleepWorld.new ⟨0⟩, sampleHolding⟩ _ ⟨w, sampleHolding⟩ :=
    timed_of_sleep (d := ⟨3 * 10 ^ 9⟩) hcalled (by simp [Clock.callEvents]) sampleHolding_phase
  refine ⟨w, (h₂.snoc hfirst).append hcall, ?_, htold⟩
  rw [SleepWorld.now, hreg]
  rfl

/-- The sample's batch is cut short by the deadline, three seconds after its first entry. -/
theorem batch_cut_for_reason_deadline :
    ∃ (events : List (TimedEvent String)) (s : TimedWorld String) (entry : BatchEntry String)
      (now : SystemTime),
    Trace (TimedStep 0) ⟨SleepWorld.new ⟨0⟩, channel sampleConfig⟩ events s ∧
      firstTaken events = some (entry, now) ∧
      now.nanos + sampleConfig.cadence.nanos ≤ s.sleep.now.nanos := by
  obtain ⟨w, hrun, hnow, htold⟩ := timedEvents_run
  obtain ⟨hs, -⟩ := timed_run .refl rfl hrun
  obtain ⟨slept, w', hslept, -, hdone, -⟩ := hs.exists_slept htold sampleHolding_phase hnow.ge
  have htimeout : TimedStep 0 ⟨w', sampleHolding⟩
      (.intake (.resume (some (some ⟨[sampleItem]⟩)))) _ := .timeout sampleHolding_phase hdone
  obtain hfull | ⟨hshut, -⟩ | ⟨entry, now, htaken, -, hle⟩ :=
    batch_cut_for_reason .refl rfl (hrun.append hslept) htimeout
      (mem_batches.mpr (List.mem_singleton_self _))
  · cases hfull
  · cases hshut
  · exact ⟨_, _, entry, now, hrun.append hslept, htaken, hle⟩

/-! ### A batch past its cadence -/

/-- The steps of its own after which the builder has emitted what it holds, once its deadline is
there: three for each entry it may still take, and those of its present sleep. -/
def TimedWorld.left (j : ℕ) (s : TimedWorld Entry) (entries : List (BatchEntry Entry)) : ℕ :=
  3 * (s.intake.config.maxBatchSize - entries.length) + (s.sleep.waiters j).laps

/-- Once the deadline is there, every own step of the builder brings the batch nearer, and no step
of anyone else takes it further away. -/
theorem left_step (h : TimedStep j s e s') (hs : Timed j events s)
    (hphase : s.intake.phase = .accumulating entries (some d)) (hdue : d ≤ s.sleep.now) :
    (∃ batch ∈ e.batches, entries <+: batch.entries) ∨
      ∃ more, s'.intake.phase = .accumulating (entries ++ more) (some d) ∧ d ≤ s'.sleep.now ∧
        s'.left j (entries ++ more) + (e.own j).toNat ≤ s.left j entries := by
  obtain ⟨-, hlt⟩ := hs.phase_open entries (some d) hphase
  cases h with
  | @sleep e w hstep hown hstay =>
    have hlaps := Watch.laps_step hstep (Clock.due_iff.mpr hdue) (hs.target_eq hphase) hstay
    have hdue' := Watch.ready_step Clock.steady_due hstep (Clock.due_iff.mpr hdue)
    refine Or.inr ⟨[], by rwa [List.append_nil], Clock.due_iff.mp hdue', ?_⟩
    rw [List.append_nil, TimedWorld.left, TimedWorld.left, Nat.add_assoc]
    exact Nat.add_le_add_left hlaps _
  | @queue e w hstep hout =>
    obtain ⟨hconfig, hsame | ⟨hidle, -⟩⟩ := phase_queue hstep hout
    · refine Or.inr ⟨[], by rw [List.append_nil, ← hphase, hsame], hdue, ?_⟩
      have hown : (TimedEvent.intake e).own j = false := by
        cases e with
        | resume out => exact absurd rfl (hout out)
        | _ => rfl
      rw [List.append_nil, TimedWorld.left, hconfig, hown]
      exact le_rfl
    · rw [hphase] at hidle
      cases hidle
  | first hwaiting =>
    rw [hphase] at hwaiting
    cases hwaiting
  | @received entries' deadline received channel hphase' hrecv =>
    rw [hphase] at hphase'
    cases hphase'
    cases received with
    | none => exact Or.inl ⟨⟨entries⟩, mem_batches.mpr (List.mem_singleton_self _), List.prefix_rfl⟩
    | some entry =>
      by_cases hroom : (entries ++ [entry]).length < s.intake.config.maxBatchSize
      · have hround : BatchBuilder.onReceived s.intake.config entries (some d) (some entry) =
            (.accumulating (entries ++ [entry]) (some d), none) := if_pos hroom
        refine Or.inr ⟨[entry], by rw [hround]; rfl, hdue, ?_⟩
        simp only [TimedWorld.left, Watch.State.put_self, Watch.Waiter.laps, World.resumed,
          List.length_append, List.length_singleton, TimedEvent.own, Bool.toNat_true]
        omega
      · have hround : BatchBuilder.onReceived s.intake.config entries (some d) (some entry) =
            (.idle, some (some ⟨entries ++ [entry]⟩)) := if_neg hroom
        refine Or.inl ⟨⟨entries ++ [entry]⟩, mem_batches.mpr ?_, List.prefix_append _ _⟩
        rw [hround]
        exact List.mem_singleton_self _
  | timeout hphase' =>
    rw [hphase] at hphase'
    cases hphase'
    exact Or.inl ⟨⟨entries⟩, mem_batches.mpr (List.mem_singleton_self _), List.prefix_rfl⟩

theorem timed_later (hs : Timed j events s) (h : Trace (TimedStep j) s later s') :
    Timed j (events ++ later) s' := by
  induction h with
  | refl => rwa [List.append_nil]
  | snoc _ hstep ih =>
    rw [← List.append_assoc]
    exact timed_step hstep ih

theorem left_run (hs : Timed j events s)
    (hphase : s.intake.phase = .accumulating entries (some d)) (hdue : d ≤ s.sleep.now)
    (h : Trace (TimedStep j) s later s') :
    (∃ batch ∈ later.flatMap TimedEvent.batches, entries <+: batch.entries) ∨
      ∃ more, s'.intake.phase = .accumulating (entries ++ more) (some d) ∧ d ≤ s'.sleep.now ∧
        s'.left j (entries ++ more) + later.countP (TimedEvent.own j) ≤ s.left j entries := by
  induction h with
  | refl =>
    refine Or.inr ⟨[], by rwa [List.append_nil], hdue, ?_⟩
    rw [List.append_nil]
    exact le_rfl
  | @snoc later e t u hrun hstep ih =>
    rw [List.flatMap_append, List.flatMap_singleton, List.countP_append, List.countP_singleton]
    obtain ⟨batch, hbatch, hprefix⟩ | ⟨more, hphase', hdue', hleft⟩ := ih
    · exact Or.inl ⟨batch, List.mem_append_left _ hbatch, hprefix⟩
    obtain ⟨batch, hbatch, hprefix⟩ | ⟨more', hphase'', hdue'', hleft'⟩ :=
      left_step hstep (timed_later hs hrun) hphase' hdue'
    · exact Or.inl ⟨batch, List.mem_append_right _ hbatch,
        (List.prefix_append entries more).trans hprefix⟩
    · have hown : (if e.own j = true then 1 else 0) = (e.own j).toNat := by
        cases e.own j <;> rfl
      refine Or.inr ⟨more ++ more', by rwa [← List.append_assoc], hdue'', ?_⟩
      rw [← List.append_assoc, hown]
      omega

/-- A batch past its cadence gets out. In every run, once the clock is one cadence past its reading
at the first entry that the builder still holds: with any `3 * maxBatchSize` further steps of the
builder's own task, whatever everyone else does in between, a batch with all it held has been
emitted; and when no call stands between its write of the clock and its notification, the builder
can emit what it holds without anyone else moving. -/
theorem due_batch_emitted {start : SystemTime} {before : List SleepEvent} {w : SleepWorld}
    {entry : BatchEntry Entry}
    (h₀ : Trace SleepStep (SleepWorld.new start) before w) (hidle : w.waiters j = .idle)
    (h : Trace (TimedStep j) ⟨w, channel config⟩ events s)
    (hphase : s.intake.phase = .accumulating entries deadline)
    (htaken : firstTaken events = some (entry, now))
    (hdue : now.nanos + config.cadence.nanos ≤ s.sleep.now.nanos) :
    (∀ later s', Trace (TimedStep j) s later s' →
      3 * config.maxBatchSize ≤ later.countP (TimedEvent.own j) →
      ∃ batch ∈ later.flatMap TimedEvent.batches, entries <+: batch.entries) ∧
    (¬ Watch.Untold s.sleep.cell → ∃ later s', Trace (TimedStep j) s later s' ∧
      (∀ e ∈ later, e.own j = true) ∧ later.flatMap TimedEvent.batches = [⟨entries⟩] ∧
      s'.sleep.cell = s.sleep.cell) := by
  obtain ⟨hs, hconfig⟩ := timed_run h₀ hidle h
  obtain ⟨entry', now', htaken', -, hdeadline⟩ := hs.deadline entries deadline hphase
  rw [htaken] at htaken'
  cases htaken'
  rw [hconfig, Clock.checkedAdd_of_le hdue] at hdeadline
  rw [hdeadline] at hphase
  constructor
  · intro later s' hlater hcount
    obtain hemitted | ⟨more, hphase', -, hleft⟩ := left_run hs hphase hdue hlater
    · exact hemitted
    · obtain ⟨hpos, hlt⟩ := hs.phase_open entries _ hphase
      have hlaps := (s.sleep.waiters j).laps_le
      rw [hconfig] at hlt
      simp only [TimedWorld.left, hconfig] at hleft
      omega
  · intro htold
    obtain ⟨slept, w', hslept, hown, hdone, hcell⟩ := hs.exists_slept htold hphase hdue
    have htimeout : TimedStep j ⟨w', s.intake⟩ (.intake (.resume (some (some ⟨entries⟩)))) _ :=
      .timeout hphase hdone
    refine ⟨_, _, hslept.snoc htimeout, ?_, ?_, hcell⟩
    · simp only [List.mem_append, List.mem_map, List.mem_singleton]
      rintro e (⟨e', he', rfl⟩ | rfl)
      · exact hown e' he'
      · rfl
    · rw [List.flatMap_append, List.flatMap_map]
      have hquiet : slept.flatMap (fun e => (TimedEvent.sleep e : TimedEvent Entry).batches) = [] :=
        List.flatMap_eq_nil_iff.mpr (fun e _ => rfl)
      rw [hquiet]
      rfl

/-- The sample's entry gets out once the clock has moved. -/
theorem due_batch_emitted_sample : ∃ events s later s',
    Trace (TimedStep 0) ⟨SleepWorld.new ⟨0⟩, channel sampleConfig⟩ events s ∧
      Trace (TimedStep 0) s later s' ∧ later.flatMap TimedEvent.batches = [⟨[sampleItem]⟩] := by
  obtain ⟨w, hrun, hnow, htold⟩ := timedEvents_run
  have htaken : firstTaken timedEvents = some (sampleItem, ⟨0⟩) := rfl
  obtain ⟨later, s', hlater, -, hbatches, -⟩ := (due_batch_emitted .refl rfl hrun
    sampleHolding_phase htaken (by rw [hnow]; decide)).2 htold
  exact ⟨_, _, later, s', hrun, hlater, hbatches⟩

end CaService
