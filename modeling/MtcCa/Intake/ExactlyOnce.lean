import MtcCa.Intake.Batch

/-! Every accepted entry is delivered once and in order, whatever the interleaving of
submissions, shutdown, receives and deadlines. -/
namespace CaService

open Mtc (Index)
open Saturating
open Transition

variable {Entry : Type} {w w' : World Entry} {ev : Event Entry} {events : List (Event Entry)}
  {item : BatchEntry Entry} {batch : Batch Entry} {result : Except IntakeError Unit}
  {out : Option (Option (Batch Entry))} {config : BatchConfig}

/-- The entries accepted by a run, in acceptance order. -/
def accepted (events : List (Event Entry)) : List (BatchEntry Entry) :=
  events.flatMap (fun
    | .submit item (.ok ()) => [item]
    | _ => [])

/-- The batches a run emitted, in order. -/
def emitted (events : List (Event Entry)) : List (Batch Entry) :=
  events.flatMap (fun
    | .resume out => returned out
    | _ => [])

/-- The entries of some batches, one batch after another. -/
def delivered (batches : List (Batch Entry)) : List (BatchEntry Entry) :=
  batches.flatMap Batch.entries

/-- The entries a suspended call holds. -/
def Phase.held : Phase Entry → List (BatchEntry Entry)
  | .accumulating entries _ => entries
  | _ => []

/-- The entries on their way: those the builder holds, then those in the channel. -/
def World.inFlight (w : World Entry) : List (BatchEntry Entry) := w.phase.held ++ w.channel.buffer

/-- A batch has at least one entry and at most `maxBatchSize`. -/
def Batch.Sized (config : BatchConfig) (batch : Batch Entry) : Prop :=
  1 ≤ batch.len ∧ batch.len ≤ config.maxBatchSize

/-- A suspended call holds at least one entry and has room for more. -/
def Phase.Open (config : BatchConfig) (p : Phase Entry) : Prop :=
  ∀ entries deadline, p = .accumulating entries deadline →
    1 ≤ entries.length ∧ entries.length < config.maxBatchSize

/-- Everything a resumed call can do: the entries on their way keep their order, some of them
leaving in a batch. -/
structure Resumes (w : World Entry) (out : Option (Option (Batch Entry))) (w' : World Entry) :
    Prop where
  inFlight : w.inFlight = delivered (returned out) ++ w'.inFlight
  sized : ∀ batch ∈ returned out, batch.Sized w.config
  phase_open : w'.phase.Open w.config
  ended : out = some none → w.sender = none ∧ w.inFlight = []
  config : w'.config = w.config
  sender : w'.sender = w.sender
  nextCompletion : w'.nextCompletion = w.nextCompletion
  outstanding : w'.outstanding = w.outstanding ++ returned out
  answers : w'.answers = w.answers

section resume

variable {entries : List (BatchEntry Entry)} {deadline : Option Cloud.SystemTime}
  {c : Channel (BatchEntry Entry)}

/-- The head of the loop either goes on with the entries or emits them. -/
theorem accumulate_spec (deadline : Option Cloud.SystemTime) (hpos : 1 ≤ entries.length)
    (hle : entries.length ≤ config.maxBatchSize) :
    entries = delivered (returned (BatchBuilder.accumulate config entries deadline).2) ++
        (BatchBuilder.accumulate config entries deadline).1.held ∧
      (∀ batch ∈ returned (BatchBuilder.accumulate config entries deadline).2,
        batch.Sized config) ∧
      (BatchBuilder.accumulate config entries deadline).1.Open config ∧
      (BatchBuilder.accumulate config entries deadline).2 ≠ some none := by
  unfold BatchBuilder.accumulate
  split
  · next hlt =>
    refine ⟨rfl, ?_, ?_, by simp⟩
    · intro batch hbatch
      cases hbatch
    · intro entries' deadline' heq
      cases heq
      exact ⟨hpos, hlt⟩
  · refine ⟨by simp [returned, delivered, Phase.held], ?_, ?_, by simp⟩
    · intro batch hbatch
      rw [List.mem_singleton.mp hbatch]
      exact ⟨hpos, hle⟩
    · intro entries' deadline' heq
      cases heq

/-- A call that goes on with `entries`, of which those it held before were `held`. -/
theorem resumes_of_accumulate (hpos : 1 ≤ entries.length)
    (hle : entries.length ≤ w.config.maxBatchSize) (hflight : w.inFlight = entries ++ c.buffer) :
    Resumes w (BatchBuilder.accumulate w.config entries deadline).2
      (w.resumed c (BatchBuilder.accumulate w.config entries deadline)) := by
  obtain ⟨hentries, hsized, hopen, hnone⟩ := accumulate_spec deadline hpos hle
  refine ⟨?_, hsized, hopen, fun h => absurd h hnone, rfl, rfl, rfl, rfl, rfl⟩
  rw [hflight, World.inFlight, ← List.append_assoc]
  exact congrArg (· ++ c.buffer) hentries

/-- A call that stops waiting emits what it holds. -/
theorem resumes_of_stop (hphase : w.phase = .accumulating entries deadline)
    (hopen : w.phase.Open w.config) :
    Resumes w (some (some ⟨entries⟩)) (w.resumed w.channel (.idle, some (some ⟨entries⟩))) := by
  obtain ⟨hpos, hlt⟩ := hopen entries deadline hphase
  refine ⟨?_, ?_, ?_, by simp, rfl, rfl, rfl, rfl, rfl⟩
  · simp [World.inFlight, hphase, Phase.held, returned, delivered, World.resumed]
  · intro batch hbatch
    rw [List.mem_singleton.mp hbatch]
    exact ⟨hpos, hlt.le⟩
  · intro entries' deadline' heq
    cases heq

theorem resumes_of_step (h : Step w (.resume out) w') (hopen : w.phase.Open w.config) :
    Resumes w out w' := by
  generalize hev : Event.resume out = ev at h
  cases h with
  | @first received c now hphase hrecv =>
    cases hev
    cases received with
    | none =>
      obtain ⟨hclosed, hbuffer, rfl⟩ := Channel.recv_none hrecv
      have hflight : w.inFlight = [] := by rw [World.inFlight, hphase, hbuffer]; rfl
      refine ⟨?_, ?_, ?_, fun _ => ⟨Option.isNone_iff_eq_none.mp hclosed, hflight⟩, rfl, rfl, rfl,
        rfl, rfl⟩
      · rw [hflight, World.inFlight]
        exact hbuffer.symm
      · intro batch hbatch
        cases hbatch
      · intro entries deadline heq
        cases heq
    | some first =>
      have hbuffer := Channel.recv_some hrecv
      refine resumes_of_accumulate (le_refl 1) w.config.pos ?_
      rw [World.inFlight, hphase, hbuffer]
      rfl
  | @received entries deadline received c hphase hrecv =>
    cases hev
    cases received with
    | none =>
      obtain ⟨-, -, rfl⟩ := Channel.recv_none hrecv
      exact resumes_of_stop hphase hopen
    | some entry =>
      obtain ⟨hpos, hlt⟩ := hopen entries deadline hphase
      have hbuffer := Channel.recv_some hrecv
      refine resumes_of_accumulate (by simp) (by simpa using hlt) ?_
      rw [World.inFlight, hphase, hbuffer]
      simp [Phase.held]
  | timeout hphase =>
    cases hev
    exact resumes_of_stop hphase hopen
  | _ => cases hev

end resume

/-- Everything a submission can do. -/
structure Submits (w : World Entry) (item : BatchEntry Entry) (result : Except IntakeError Unit)
    (w' : World Entry) : Prop where
  completion : item.completion = w.nextCompletion
  nextCompletion : w'.nextCompletion = w.nextCompletion + 1
  outcome : (result = .ok () ∧ w.sender ≠ none ∧ w'.inFlight = w.inFlight ++ [item]) ∨
    (∃ e, result = .error e) ∧ w'.inFlight = w.inFlight
  rejected : w.sender = none → result = .error .shutdown
  phase : w'.phase = w.phase
  config : w'.config = w.config
  sender : w'.sender = w.sender
  outstanding : w'.outstanding = w.outstanding
  answers : w'.answers = w.answers

theorem submits_of_step (h : Step w (.submit item result) w') : Submits w item result w' := by
  generalize hev : Event.submit item result = ev at h
  cases h with
  | @submit entry =>
    obtain ⟨rfl, rfl⟩ := Event.submit.inj hev
    unfold World.submitEntry World.tryEnqueue
    cases hsender : w.sender with
    | none =>
      exact ⟨rfl, rfl, Or.inr ⟨⟨_, rfl⟩, rfl⟩, fun _ => rfl, rfl, rfl, hsender.symm ▸ rfl, rfl, rfl⟩
    | some s =>
      have hopen : w.sender ≠ none := by simp [hsender]
      refine ⟨rfl, rfl, ?_, fun hnone => absurd hnone hopen, rfl, rfl, hsender.symm ▸ rfl, rfl, rfl⟩
      rcases w.channel.trySend_cases ⟨entry, w.nextCompletion⟩ with ⟨hok, hbuffer⟩ | ⟨e, he, hsame⟩
      · refine Or.inl ⟨by simp only [hok]; rfl, hopen, ?_⟩
        simp only [World.inFlight, hbuffer, List.append_assoc]
      · refine Or.inr ⟨?_, ?_⟩
        · simp only [he]
          exact ⟨_, rfl⟩
        · simp only [World.inFlight, hsame]
  | _ => cases hev

theorem accepted_concat (events : List (Event Entry)) (ev : Event Entry) :
    accepted (events ++ [ev]) = accepted events ++ accepted [ev] := List.flatMap_append

theorem emitted_concat (events : List (Event Entry)) (ev : Event Entry) :
    emitted (events ++ [ev]) = emitted events ++ emitted [ev] := List.flatMap_append

theorem delivered_append (a b : List (Batch Entry)) :
    delivered (a ++ b) = delivered a ++ delivered b := List.flatMap_append

/-- Nothing is lost, doubled or reordered on the way. -/
structure Flow (config : BatchConfig) (events : List (Event Entry)) (w : World Entry) : Prop where
  flow : accepted events = delivered (emitted events) ++ w.inFlight
  sized : ∀ batch ∈ emitted events, batch.Sized config
  phase_open : w.phase.Open w.config
  config_eq : w.config = config

/-- A step that neither accepts nor emits keeps the entries on their way. -/
theorem Flow.quiet (hs : Flow config events w) (hev : accepted [ev] = [] ∧ emitted [ev] = [])
    (hflight : w'.inFlight = w.inFlight) (hopen : w'.phase.Open w.config)
    (hconfig : w'.config = w.config) : Flow config (events ++ [ev]) w' := by
  refine ⟨?_, ?_, hconfig ▸ hopen, hconfig.trans hs.config_eq⟩
  · rw [accepted_concat, emitted_concat, hev.1, hev.2, hflight, List.append_nil, List.append_nil]
    exact hs.flow
  · rw [emitted_concat, hev.2, List.append_nil]
    exact hs.sized

theorem open_step (h : Step w ev w') (hs : w.phase.Open w.config) : w'.phase.Open w'.config := by
  cases ev with
  | submit =>
    have hsubmit := submits_of_step h
    rw [hsubmit.phase, hsubmit.config]
    exact hs
  | resume =>
    have hresumes := resumes_of_step h hs
    rw [hresumes.config]
    exact hresumes.phase_open
  | nextBatch =>
    cases h
    intro entries deadline heq
    cases heq
  | _ =>
    cases h
    exact hs

theorem flow_submit (h : Submits w item result w') (hs : Flow config events w) :
    Flow config (events ++ [.submit item result]) w' := by
  have hopen : w'.phase.Open w.config := h.phase ▸ hs.phase_open
  rcases h.outcome with ⟨rfl, -, hflight⟩ | ⟨⟨e, rfl⟩, hflight⟩
  · refine ⟨?_, ?_, h.config ▸ hopen, h.config.trans hs.config_eq⟩
    · rw [accepted_concat, emitted_concat, hflight, hs.flow]
      simp [accepted, emitted]
    · rw [emitted_concat]
      simpa [emitted] using hs.sized
  · exact hs.quiet ⟨rfl, rfl⟩ hflight hopen h.config

theorem flow_resume (h : Resumes w out w') (hs : Flow config events w) :
    Flow config (events ++ [.resume out]) w' := by
  have hin : accepted [.resume out] = [] := rfl
  have hout : emitted [.resume out] = returned out := List.append_nil _
  refine ⟨?_, ?_, h.config ▸ h.phase_open, h.config.trans hs.config_eq⟩
  · rw [accepted_concat, emitted_concat, hin, hout, hs.flow, h.inFlight, delivered_append,
      List.append_nil, List.append_assoc]
  · intro batch hbatch
    rw [emitted_concat, hout] at hbatch
    rcases List.mem_append.mp hbatch with hbatch | hbatch
    · exact hs.sized batch hbatch
    · exact hs.config_eq ▸ h.sized batch hbatch

theorem flow_step (h : Step w ev w') (hs : Flow config events w) :
    Flow config (events ++ [ev]) w' := by
  cases ev with
  | submit => exact flow_submit (submits_of_step h) hs
  | resume => exact flow_resume (resumes_of_step h hs.phase_open) hs
  | shutdown =>
    cases h
    exact hs.quiet ⟨rfl, rfl⟩ rfl hs.phase_open rfl
  | nextBatch =>
    cases h with
    | nextBatch hphase =>
      refine hs.quiet ⟨rfl, rfl⟩ ?_ ?_ rfl
      · simp [World.inFlight, hphase, Phase.held]
      · intro entries deadline heq
        cases heq
  | completeSequential =>
    cases h
    exact hs.quiet ⟨rfl, rfl⟩ rfl hs.phase_open rfl
  | failAll =>
    cases h
    exact hs.quiet ⟨rfl, rfl⟩ rfl hs.phase_open rfl

theorem flow_initial (config : BatchConfig) :
    Flow config ([] : List (Event Entry)) (channel config) := by
  refine ⟨rfl, ?_, ?_, rfl⟩
  · intro batch hbatch
    cases hbatch
  · intro entries deadline heq
    cases heq

theorem flow_trace (h : Trace Step (channel config) events w) : Flow config events w :=
  h.history (fun _ _ _ _ hstep hs => flow_step hstep hs) (flow_initial config)

/-- A shut queue stays shut and rejects. -/
theorem shut_step (h : Step w ev w') (hs : w.sender = none) :
    w'.sender = none ∧ ∀ item result, ev = .submit item result → result = .error .shutdown := by
  cases ev with
  | submit item result =>
    have hsubmit := submits_of_step h
    refine ⟨hsubmit.sender.trans hs, ?_⟩
    rintro _ _ ⟨⟩
    exact hsubmit.rejected hs
  | _ =>
    refine ⟨?_, by simp⟩
    cases h <;> first | rfl | exact hs

theorem shut_trace (h : Trace Step w events w') (hs : w.sender = none) :
    w'.sender = none ∧
      ∀ item result, .submit item result ∈ events → result = .error .shutdown := by
  induction h with
  | refl => exact ⟨hs, by simp⟩
  | snoc _ hstep ih =>
    obtain ⟨hsender, hall⟩ := ih
    obtain ⟨hsender', hlast⟩ := shut_step hstep hsender
    refine ⟨hsender', ?_⟩
    intro item result hmem
    rcases List.mem_append.mp hmem with hmem | hmem
    · exact hall item result hmem
    · exact hlast item result (List.mem_singleton.mp hmem).symm

theorem rejected_after_shutdown {before after : List (Event Entry)}
    (h : Trace Step w (before ++ .shutdown :: after) w') (item : BatchEntry Entry)
    (result : Except IntakeError Unit) (hmem : .submit item result ∈ after) :
    result = .error .shutdown := by
  obtain ⟨t, -, hrest⟩ := h.split
  obtain ⟨t', hshut, hafter⟩ := (show Trace Step t ([.shutdown] ++ after) w' from hrest).split
  have hsender : t'.sender = none := by
    cases hshut.step_of_singleton
    rfl
  exact (shut_trace hafter hsender).2 item result hmem

/-- A shut queue with nothing on its way stays that way. -/
theorem drained_step (h : Step w ev w') (hopen : w.phase.Open w.config) (hs : w.sender = none)
    (hflight : w.inFlight = []) : w'.inFlight = [] := by
  cases ev with
  | submit item result =>
    have hsubmit := submits_of_step h
    rcases hsubmit.outcome with ⟨-, hsender, -⟩ | ⟨-, hsame⟩
    · exact absurd hs hsender
    · rw [hsame, hflight]
  | resume out =>
    have hresumes := (resumes_of_step h hopen).inFlight
    rw [hflight] at hresumes
    exact (List.append_eq_nil_iff.mp hresumes.symm).2
  | nextBatch =>
    cases h with
    | nextBatch hphase =>
      rw [World.inFlight, hphase] at hflight
      exact hflight
  | _ =>
    cases h
    exact hflight

theorem drained_trace {t : World Entry} (h : Trace Step t events w) (hopen : t.phase.Open t.config)
    (hs : t.sender = none) (hflight : t.inFlight = []) : w.inFlight = [] := by
  have hinv : w.phase.Open w.config ∧ w.sender = none ∧ w.inFlight = [] := by
    refine h.invariant (P := fun w => w.phase.Open w.config ∧ w.sender = none ∧ w.inFlight = [])
      ?_ ⟨hopen, hs, hflight⟩
    rintro u ev u' hstep ⟨hopen, hs, hflight⟩
    refine ⟨open_step hstep hopen, (shut_step hstep hs).1, drained_step hstep hopen hs hflight⟩
  exact hinv.2.2

/-- Once `next_batch` has returned nothing, nothing is on its way. -/
theorem drained_of_ended (h : Trace Step (channel config) events w)
    (hend : .resume (some none) ∈ events) : w.inFlight = [] := by
  obtain ⟨before, t, t', after, hbefore, hstep, hafter, -⟩ := h.exists_step_of_mem hend
  have hopen := (flow_trace hbefore).phase_open
  have hresumes := resumes_of_step hstep hopen
  obtain ⟨hsender, hflight⟩ := hresumes.ended rfl
  refine drained_trace hafter ?_ (hresumes.sender.trans hsender) ?_
  · rw [hresumes.config]
    exact hresumes.phase_open
  · rw [hresumes.inFlight] at hflight
    exact (List.append_eq_nil_iff.mp hflight).2

/-- The submissions of a run with their results. -/
def submissions (events : List (Event Entry)) : List (BatchEntry Entry × Except IntakeError Unit) :=
  events.flatMap (fun
    | .submit item result => [(item, result)]
    | _ => [])

theorem mem_submissions : (item, result) ∈ submissions events ↔ .submit item result ∈ events := by
  rw [submissions, List.mem_flatMap]
  constructor
  · rintro ⟨ev, hev, hmem⟩
    cases ev with
    | submit =>
      cases List.mem_singleton.mp hmem
      exact hev
    | _ => cases hmem
  · intro h
    exact ⟨_, h, List.mem_singleton.mpr rfl⟩

theorem mem_accepted : item ∈ accepted events ↔ .submit item (.ok ()) ∈ events := by
  rw [accepted, List.mem_flatMap]
  constructor
  · rintro ⟨ev, hev, hmem⟩
    split at hmem
    · rw [List.mem_singleton.mp hmem]
      exact hev
    · cases hmem
  · intro h
    exact ⟨_, h, List.mem_singleton.mpr rfl⟩

/-- Every submission has its own handle. -/
structure Handles (events : List (Event Entry)) (w : World Entry) : Prop where
  nodup : ((submissions events).map (fun s => s.1.completion)).Nodup
  lt : ∀ s ∈ submissions events, s.1.completion < w.nextCompletion

theorem handles_step (h : Step w ev w') (hs : Handles events w) : Handles (events ++ [ev]) w' := by
  have hconcat : submissions (events ++ [ev]) = submissions events ++ submissions [ev] :=
    List.flatMap_append
  have hquiet : submissions [ev] = [] → w'.nextCompletion = w.nextCompletion →
      Handles (events ++ [ev]) w' := by
    intro hnone hnext
    rw [hnone, List.append_nil] at hconcat
    exact ⟨hconcat ▸ hs.nodup, hnext ▸ hconcat ▸ hs.lt⟩
  cases ev with
  | submit item result =>
    have hsubmit := submits_of_step h
    have hone : submissions [.submit item result] = [(item, result)] := rfl
    refine ⟨?_, ?_⟩
    · rw [hconcat, hone, List.map_append, List.nodup_append]
      refine ⟨hs.nodup, List.nodup_singleton _, ?_⟩
      intro a ha b hb
      obtain ⟨s, hmem, rfl⟩ := List.mem_map.mp ha
      have hlt := hs.lt s hmem
      obtain rfl : b = item.completion := List.mem_singleton.mp hb
      rw [hsubmit.completion]
      exact ne_of_lt hlt
    · intro s hmem
      rw [hsubmit.nextCompletion]
      rw [hconcat, hone] at hmem
      rcases List.mem_append.mp hmem with hmem | hmem
      · exact Nat.lt_succ_of_lt (hs.lt s hmem)
      · rw [List.mem_singleton.mp hmem, hsubmit.completion]
        exact Nat.lt_succ_self _
  | _ =>
    refine hquiet rfl ?_
    cases h <;> rfl

theorem handles_trace (h : Trace Step (channel config) events w) : Handles events w :=
  h.history (fun _ _ _ _ hstep hs => handles_step hstep hs)
    ⟨List.nodup_nil, fun _ hmem => by cases hmem⟩

theorem mem_accepted_of_delivered (hflow : Flow config events w)
    (h : item ∈ delivered (emitted events)) : item ∈ accepted events := by
  rw [hflow.flow]
  exact List.mem_append_left _ h

/-- A delivered entry is not a rejected one. -/
theorem rejected_not_delivered {other : BatchEntry Entry} {e : IntakeError}
    (h : Trace Step (channel config) events w) (hrej : .submit item (.error e) ∈ events)
    (hother : other ∈ delivered (emitted events)) : other.completion ≠ item.completion := by
  intro heq
  have hacc := mem_accepted.mp (mem_accepted_of_delivered (flow_trace h) hother)
  have hsame := List.inj_on_of_nodup_map (handles_trace h).nodup (mem_submissions.mpr hacc)
    (mem_submissions.mpr hrej) heq
  cases congrArg Prod.snd hsame

/-- The entries whose submitters still wait. -/
def World.waiting (w : World Entry) : List (BatchEntry Entry) :=
  delivered w.outstanding ++ w.inFlight

/-- Submitters wait under different handles, and an answer given stays. -/
structure Answered (events : List (Event Entry)) (w : World Entry) : Prop where
  nodup : (w.waiting.map BatchEntry.completion).Nodup
  lt : ∀ item ∈ w.waiting, item.completion < w.nextCompletion
  unanswered : ∀ item ∈ w.waiting, w.answers.get? item.completion = none
  answered_lt : ∀ id, (w.answers.get? id).isSome → id < w.nextCompletion
  completed : ∀ batch start, .completeSequential batch start ∈ events →
    ∀ p ∈ batch.completeSequential start, w.answers.get? p.1 = some p.2

/-- A step that leaves the waiting submitters and the answers as they are. -/
theorem Answered.quiet (hs : Answered events w) (hwaiting : w'.waiting = w.waiting)
    (hnext : w'.nextCompletion = w.nextCompletion) (hanswers : w'.answers = w.answers)
    (hev : ∀ batch start, ev ≠ .completeSequential batch start) :
    Answered (events ++ [ev]) w' := by
  refine ⟨hwaiting ▸ hs.nodup, ?_, ?_, ?_, ?_⟩
  · rw [hwaiting, hnext]
    exact hs.lt
  · rw [hwaiting, hanswers]
    exact hs.unanswered
  · rw [hanswers, hnext]
    exact hs.answered_lt
  · intro batch start hmem
    rw [hanswers]
    rcases List.mem_append.mp hmem with hmem | hmem
    · exact hs.completed batch start hmem
    · exact absurd (List.mem_singleton.mp hmem).symm (hev batch start)

theorem answered_submit (h : Submits w item result w') (hs : Answered events w) :
    Answered (events ++ [.submit item result]) w' := by
  obtain ⟨fresh, hwaiting, hfresh⟩ : ∃ fresh, w'.waiting = w.waiting ++ fresh ∧
      (fresh = [item] ∨ fresh = []) := by
    simp only [World.waiting, h.outstanding, List.append_assoc]
    rcases h.outcome with ⟨-, -, hflight⟩ | ⟨-, hflight⟩
    · exact ⟨[item], by rw [hflight], Or.inl rfl⟩
    · exact ⟨[], by rw [hflight, List.append_nil], Or.inr rfl⟩
  have hnew : ∀ other ∈ fresh, other.completion = w.nextCompletion := by
    intro other hmem
    rcases hfresh with rfl | rfl
    · rw [List.mem_singleton.mp hmem, h.completion]
    · cases hmem
  refine ⟨?_, ?_, ?_, ?_, ?_⟩
  · rw [hwaiting, List.map_append, List.nodup_append]
    refine ⟨hs.nodup, ?_, ?_⟩
    · rcases hfresh with rfl | rfl <;> simp
    · intro a ha b hb
      obtain ⟨old, hold, rfl⟩ := List.mem_map.mp ha
      obtain ⟨new, hmem, rfl⟩ := List.mem_map.mp hb
      rw [hnew new hmem]
      exact ne_of_lt (hs.lt old hold)
  · intro other hmem
    rw [hwaiting] at hmem
    rw [h.nextCompletion]
    rcases List.mem_append.mp hmem with hmem | hmem
    · exact Nat.lt_succ_of_lt (hs.lt other hmem)
    · rw [hnew other hmem]
      exact Nat.lt_succ_self _
  · intro other hmem
    rw [hwaiting] at hmem
    rw [h.answers]
    rcases List.mem_append.mp hmem with hmem | hmem
    · exact hs.unanswered other hmem
    · rw [← Option.not_isSome_iff_eq_none, hnew other hmem]
      exact fun hsome => lt_irrefl _ (hs.answered_lt _ hsome)
  · intro id hid
    rw [h.answers] at hid
    rw [h.nextCompletion]
    exact Nat.lt_succ_of_lt (hs.answered_lt id hid)
  · intro batch start hmem
    rw [h.answers]
    rcases List.mem_append.mp hmem with hmem | hmem
    · exact hs.completed batch start hmem
    · cases List.mem_singleton.mp hmem

theorem completions_completeSequential (batch : Batch Entry) (start : Index) :
    (batch.completeSequential start).map Prod.fst = batch.entries.map BatchEntry.completion := by
  calc (batch.completeSequential start).map Prod.fst
      = (batch.entries.zipIdx.map Prod.fst).map BatchEntry.completion := by
        rw [Batch.completeSequential, List.map_map, List.map_map]
        rfl
    _ = batch.entries.map BatchEntry.completion := by rw [List.zipIdx_map_fst]

theorem completions_failAll (batch : Batch Entry) (error : IntakeError) :
    (batch.failAll error).map Prod.fst = batch.entries.map BatchEntry.completion := by
  rw [Batch.failAll, List.map_map]
  rfl

/-- The entries of one batch among those that are waiting. -/
theorem waiting_outstanding {before after : List (Batch Entry)}
    (hout : w.outstanding = before ++ batch :: after) :
    w.waiting = delivered before ++ (batch.entries ++ (delivered after ++ w.inFlight)) := by
  rw [World.waiting, hout, delivered_append]
  simp [delivered]

theorem waiting_answer {before after : List (Batch Entry)} (answers : List Answer) :
    ({ w with outstanding := before ++ after }.answer answers).waiting =
      delivered before ++ (delivered after ++ w.inFlight) := by
  rw [World.waiting]
  simp only [World.answer, delivered_append, List.append_assoc]
  rfl

/-- Answering one of the batches leaves the other submitters waiting. -/
theorem answered_batch {before after : List (Batch Entry)} {answers : List Answer}
    (hs : Answered events w) (hout : w.outstanding = before ++ batch :: after)
    (hkeys : answers.map Prod.fst = batch.entries.map BatchEntry.completion)
    (hev : ∀ b start, ev = .completeSequential b start → answers = b.completeSequential start) :
    Answered (events ++ [ev]) ({ w with outstanding := before ++ after }.answer answers) := by
  have hsplit := waiting_outstanding hout
  have hrest : ({ w with outstanding := before ++ after }.answer answers).waiting =
      delivered before ++ (delivered after ++ w.inFlight) := waiting_answer answers
  have hsub : (delivered before ++ (delivered after ++ w.inFlight)).Sublist w.waiting := by
    rw [hsplit]
    exact (List.sublist_append_right _ _).append_left _
  have hnodup := hs.nodup
  rw [hsplit, List.map_append, List.map_append] at hnodup
  obtain ⟨-, hnodup, hbefore⟩ := List.nodup_append.mp hnodup
  obtain ⟨hbatch, -, hafter⟩ := List.nodup_append.mp hnodup
  have hmem : ∀ item ∈ batch.entries, item ∈ w.waiting := by
    intro item hitem
    rw [hsplit]
    simp [hitem]
  have hother : ∀ id, id ∉ answers.map Prod.fst →
      ({ w with outstanding := before ++ after }.answer answers).answers.get? id =
        w.answers.get? id :=
    fun id hid => FiniteMap.get?_foldl_insert_of_notMem hid
  refine ⟨?_, ?_, ?_, ?_, ?_⟩
  · rw [hrest]
    exact hs.nodup.sublist (hsub.map _)
  · intro item hitem
    rw [hrest] at hitem
    exact hs.lt item (hsub.subset hitem)
  · intro item hitem
    rw [hrest] at hitem
    rw [hother]
    · exact hs.unanswered item (hsub.subset hitem)
    · rw [hkeys]
      intro hid
      rcases List.mem_append.mp hitem with hitem | hitem
      · exact hbefore _ (List.mem_map_of_mem hitem) _ (List.mem_append_left _ hid) rfl
      · exact hafter _ hid _ (List.mem_map_of_mem hitem) rfl
  · intro id hid
    by_cases hkey : id ∈ answers.map Prod.fst
    · rw [hkeys] at hkey
      obtain ⟨item, hitem, rfl⟩ := List.mem_map.mp hkey
      exact hs.lt item (hmem item hitem)
    · rw [hother id hkey] at hid
      exact hs.answered_lt id hid
  · intro b start hcompleted p hp
    rcases List.mem_append.mp hcompleted with hcompleted | hcompleted
    · have hsome := hs.completed b start hcompleted p hp
      rw [hother]
      · exact hsome
      · rw [hkeys]
        intro hid
        obtain ⟨item, hitem, hid⟩ := List.mem_map.mp hid
        have hnone := hs.unanswered item (hmem item hitem)
        rw [hid, hsome] at hnone
        cases hnone
    · have hanswers := hev b start (List.mem_singleton.mp hcompleted).symm
      rw [← hanswers] at hp
      exact FiniteMap.get?_foldl_insert_of_mem (hkeys ▸ hbatch) hp

theorem answered_step (h : Step w ev w') (hopen : w.phase.Open w.config)
    (hs : Answered events w) : Answered (events ++ [ev]) w' := by
  cases ev with
  | submit => exact answered_submit (submits_of_step h) hs
  | resume out =>
    have hresumes := resumes_of_step h hopen
    refine hs.quiet ?_ hresumes.nextCompletion hresumes.answers (by simp)
    rw [World.waiting, hresumes.outstanding, delivered_append, List.append_assoc,
      ← hresumes.inFlight, World.waiting]
  | shutdown =>
    cases h
    exact hs.quiet rfl rfl rfl (by simp)
  | nextBatch =>
    cases h with
    | nextBatch hphase =>
      refine hs.quiet ?_ rfl rfl (by simp)
      simp [World.waiting, World.inFlight, hphase, Phase.held]
  | completeSequential batch start =>
    cases h with
    | completeSequential hout =>
      refine answered_batch hs hout (completions_completeSequential batch start) ?_
      rintro _ _ ⟨⟩
      rfl
  | failAll batch error =>
    cases h with
    | failAll hout => exact answered_batch hs hout (completions_failAll batch error) (by simp)

theorem answered_trace (h : Trace Step (channel config) events w) : Answered events w := by
  have hinv : w.phase.Open w.config ∧ Answered events w := by
    refine h.history (P := fun events w => w.phase.Open w.config ∧ Answered events w) ?_
      ⟨(flow_initial config).phase_open, ?_⟩
    · rintro events ev w w' hstep ⟨hopen, hs⟩
      exact ⟨open_step hstep hopen, answered_step hstep hopen hs⟩
    · exact ⟨List.nodup_nil, by simp [World.waiting, World.inFlight, channel, delivered,
        Phase.held, Channel.new], by simp [World.waiting, World.inFlight, channel, delivered,
        Phase.held, Channel.new], by simp [channel], by simp⟩
  exact hinv.2

/-- The index the `k`-th entry is answered with, where the range does not overflow. -/
theorem mem_completeSequential {start : Index} {k : ℕ} (hk : batch.entries[k]? = some item)
    (hrange : start.toNat + batch.len ≤ 2 ^ 64) :
    ∃ index : Index, (item.completion, .ok index) ∈ batch.completeSequential start ∧
      index.toNat = start.toNat + k := by
  have hlt : k < batch.len := (List.getElem?_eq_some_iff.mp hk).1
  refine ⟨saturatingAdd start (saturate k), ?_, ?_⟩
  · rw [Batch.completeSequential, List.mem_map]
    exact ⟨(item, k), List.mk_mem_zipIdx_iff_getElem?.mpr hk, rfl⟩
  · rw [toNat_saturatingAdd, toNat_saturate_of_lt (by omega)]
    omega

/-- The batches are the accepted entries cut into pieces, in order, and all of them once the
builder has ended; nothing rejected is among them, nothing is accepted after shutdown, and a
completed batch answers its submitters with consecutive indices. -/
theorem intake_exactly_once (h : Trace Step (channel config) events w) :
    delivered (emitted events) <+: accepted events ∧
    (.resume (some none) ∈ events → delivered (emitted events) = accepted events) ∧
    (∀ item e, .submit item (.error e) ∈ events →
      ∀ other ∈ delivered (emitted events), other.completion ≠ item.completion) ∧
    (∀ batch ∈ emitted events, 1 ≤ batch.len ∧ batch.len ≤ config.maxBatchSize) ∧
    (∀ before after, events = before ++ .shutdown :: after →
      ∀ item result, .submit item result ∈ after → result = .error .shutdown) ∧
    ∀ batch start, .completeSequential batch start ∈ events →
      start.toNat + batch.len ≤ 2 ^ 64 →
      (∀ (k : ℕ) (item : BatchEntry Entry), batch.entries[k]? = some item → ∃ index : Index,
        w.answers.get? item.completion = some (.ok index) ∧ index.toNat = start.toNat + k) ∧
      ∀ (j k : ℕ) (item item' : BatchEntry Entry), batch.entries[j]? = some item →
        batch.entries[k]? = some item' →
        w.answers.get? item.completion = w.answers.get? item'.completion → j = k := by
  have hflow := flow_trace h
  refine ⟨?_, ?_, ?_, hflow.sized, ?_, ?_⟩
  · rw [hflow.flow]
    exact List.prefix_append _ _
  · intro hend
    rw [hflow.flow, drained_of_ended h hend, List.append_nil]
  · intro item e hrej other hother
    exact rejected_not_delivered h hrej hother
  · rintro before after rfl item result hmem
    exact rejected_after_shutdown h item result hmem
  · intro batch start hmem hrange
    have hanswer : ∀ (k : ℕ) (item : BatchEntry Entry), batch.entries[k]? = some item →
        ∃ index : Index,
        w.answers.get? item.completion = some (.ok index) ∧ index.toNat = start.toNat + k := by
      intro k item hk
      obtain ⟨index, hindex, hval⟩ := mem_completeSequential hk hrange
      exact ⟨index, (answered_trace h).completed batch start hmem _ hindex, hval⟩
    refine ⟨hanswer, ?_⟩
    intro j k item item' hj hk heq
    obtain ⟨index, hindex, hval⟩ := hanswer j item hj
    obtain ⟨index', hindex', hval'⟩ := hanswer k item' hk
    rw [hindex, hindex'] at heq
    cases heq
    omega

def sampleConfig : BatchConfig := ⟨2, ⟨3 * 10 ^ 9⟩, by decide⟩

def sampleItem : BatchEntry String := ⟨"order-1", 0⟩

/-- One submission, taken by a call that waits for a second one. -/
def sampleSubmitted : World String := ((channel sampleConfig).submitEntry "order-1").2.2

def sampleCalled : World String := { sampleSubmitted with phase := .awaitingFirst }

def sampleHolding : World String :=
  sampleCalled.resumed (.new 2) (BatchBuilder.onFirst sampleConfig ⟨0⟩ (some sampleItem))

def sampleEmitted : World String :=
  sampleHolding.resumed (.new 2)
    (BatchBuilder.onReceived sampleConfig [sampleItem] (some ⟨3 * 10 ^ 9⟩) none)

/-- The entry is emitted at the deadline and completed with index 7. -/
theorem intake_exactly_once_deadline :
    ∃ (events : List (Event String)) (w : World String),
      Trace Step (channel sampleConfig) events w ∧
      delivered (emitted events) <+: accepted events ∧
      ∃ index : Index, w.answers.get? 0 = some (.ok index) ∧ index.toNat = 7 := by
  have hsubmit : Step (channel sampleConfig) (.submit sampleItem (.ok ())) sampleSubmitted :=
    .submit
  have hcall : Step sampleSubmitted .nextBatch sampleCalled := .nextBatch rfl
  have hfirst : Step sampleCalled
      (.resume (BatchBuilder.onFirst sampleConfig ⟨0⟩ (some sampleItem)).2) sampleHolding :=
    .first rfl rfl
  have hphase : sampleHolding.phase = .accumulating [sampleItem] (some ⟨3 * 10 ^ 9⟩) := by
    norm_num [sampleHolding, World.resumed, BatchBuilder.onFirst, BatchBuilder.accumulate,
      sampleConfig, checkedAdd]
  have htimeout : Step sampleHolding (.resume (some (some ⟨[sampleItem]⟩))) sampleEmitted :=
    .timeout hphase
  have hcomplete : Step sampleEmitted (.completeSequential ⟨[sampleItem]⟩ 7)
      ({ sampleEmitted with outstanding := [] ++ [] }.answer
        (Batch.completeSequential ⟨[sampleItem]⟩ 7)) := .completeSequential rfl
  have htrace := ((((Trace.refl.snoc hsubmit).snoc hcall).snoc hfirst).snoc htimeout).snoc
    hcomplete
  obtain ⟨hpiece, -, -, -, -, hanswers⟩ := intake_exactly_once htrace
  refine ⟨_, _, htrace, hpiece, ?_⟩
  exact (hanswers ⟨[sampleItem]⟩ 7 (by simp) (show 7 + 1 ≤ 2 ^ 64 by norm_num)).1 0 sampleItem rfl

end CaService
