import MtcCa.Replicator.Partition

/-! What `/status` answers between two cycles of a link (`crates/dev-replicator/src/link.rs`,
`crates/dev-replicator/src/control.rs`). -/
namespace DevReplicator

open Cloud Cloud.Dynamo
open Transition (Trace)

/-- The pause flag as posted last. -/
def pausedBy (events : List LinkEvent) : Bool := (events.filterMap LinkEvent.pause?).getLastD false

/-- The status shows the queues as they are; only the ages, read at one of the given times, have
grown since. -/
structure Link.Reported (link : Link) (times : List SystemTime) : Prop where
  lag : link.status.lag = .ofPolicy link.activeLag
  s3 : ∃ now ∈ times, link.status.s3 = link.s3.map (·.poller.scheduler.status now)
  ddb : ∃ now ∈ times, link.status.ddb = link.ddb.map (·.poller.scheduler.status now)

/-- The status of a link with a poller, as far as it never changes. -/
structure Link.Titled (link : Link) (name : String) : Prop where
  name : link.status.linkName = name
  some : link.s3.isSome ∨ link.ddb.isSome
  s3 : link.s3 = none → link.status.s3 = none
  ddb : link.ddb = none → link.status.ddb = none

/-- The cycle in progress, or the last one, found the pause flag so. -/
def Link.ReadAs (link : Link) (paused : Bool) : Prop :=
  match link.stage with
  | .waiting => link.status.paused = paused
  | .lagTaken => False
  | .publish p => p = paused
  | .stopped => True
  | _ => paused = false

/-- The status of a resource goes by its ledger: the counts, and the age of the first change that
was not attempted yet. -/
structure ResourceStatus.Accounts {K E : Type} (status : ResourceStatus) (l : Ledger K E)
    (times : List SystemTime) : Prop where
  queued : status.pending + status.applied = l.queued.length
  applied : status.applied = l.attempts.length
  oldest : ∃ now ∈ times, status.oldestPendingAge =
    (l.queued.drop l.attempts.length).head?.map (durationSince now ·.discoveredAt)

theorem accounts_status {K E : Type} [DecidableEq K] {l : Ledger K E} {s : LagScheduler K E}
    (h : l.Matches s) {times : List SystemTime} {now : SystemTime} (hnow : now ∈ times) :
    (s.status now).Accounts l times := by
  have happlied : (s.status now).applied = l.attempts.length := h.appliedLen
  have hpending : l.queued.drop l.attempts.length = s.pending := by
    rw [h.queued, List.drop_left' (List.length_map _)]
  refine ⟨?_, happlied, now, hnow, ?_⟩
  · have hcount : (s.status now).pending = s.pending.length := rfl
    rw [happlied, hcount, h.queued, List.length_append, List.length_map, Nat.add_comm]
  · rw [hpending]
    rfl

section steps

variable {R : Runtime} {link link' : Link} {a : LinkEvent} {name : String} {paused : Bool}
  {policy : LagPolicy} {times times' : List SystemTime}

/-- Only the end of a cycle writes the status. -/
theorem status_step (h : LinkStep R link a link') :
    link'.status = link.status ∨ ∃ p s3Now ddbNow, link.stage = .publish p ∧
      link' = { link with status := link.publishStatus p s3Now ddbNow, stage := .waiting } := by
  cases h with
  | postLag view =>
    left
    unfold Link.postLag
    split
    · rfl
    · rfl
  | takeLag hstage =>
    left
    show (link.takeLag R).status = link.status
    unfold Link.takeLag
    split
    · rfl
    · rfl
  | publish hstage => exact Or.inr ⟨_, _, _, hstage, rfl⟩
  | _ => exact Or.inl rfl

theorem titled_step (h : LinkStep R link a link') (hlink : link.Titled name) :
    link'.Titled name := by
  obtain ⟨hname, hsome, hs3, hddb⟩ := hlink
  have hs3' : link'.s3.isSome = link.s3.isSome := by rw [s3_step h, Option.isSome_map]
  have hddb' : link'.ddb.isSome = link.ddb.isSome := by rw [ddb_step h, Option.isSome_map]
  have hnone : link'.s3 = none → link.s3 = none := by
    rw [s3_step h]
    exact Option.map_eq_none_iff.mp
  have hnone' : link'.ddb = none → link.ddb = none := by
    rw [ddb_step h]
    exact Option.map_eq_none_iff.mp
  rcases status_step h with hstatus | ⟨p, s3Now, ddbNow, -, rfl⟩
  · rw [← hs3', ← hddb'] at hsome
    rw [← hstatus] at hname hs3 hddb
    exact ⟨hname, hsome, fun hs3'' => hs3 (hnone hs3''), fun hddb'' => hddb (hnone' hddb'')⟩
  · refine ⟨hname, hsome, ?_, ?_⟩
    · intro hs3''
      have hkept : link.s3 = none := hs3''
      simp [Link.publishStatus, hkept, hs3 hkept]
    · intro hddb''
      have hkept : link.ddb = none := hddb''
      simp [Link.publishStatus, hkept, hddb hkept]

/-- A cycle ends with the queues as they are. -/
theorem reported_publish (hlink : link.Titled name) (p : Bool) (s3Now ddbNow : SystemTime) :
    ({ link with status := link.publishStatus p s3Now ddbNow, stage := .waiting } : Link).Reported
      [s3Now, ddbNow] := by
  refine ⟨rfl, ⟨s3Now, by simp, ?_⟩, ⟨ddbNow, by simp, ?_⟩⟩
  · cases hs3 : link.s3 with
    | none => simp [Link.publishStatus, hs3, hlink.s3 hs3]
    | some s3 => simp [Link.publishStatus, hs3]
  · cases hddb : link.ddb with
    | none => simp [Link.publishStatus, hddb, hlink.ddb hddb]
    | some ddb => simp [Link.publishStatus, hddb]

theorem Link.Reported.mono (h : link.Reported times) (hsub : times ⊆ times') :
    link.Reported times' := by
  obtain ⟨hlag, ⟨s3Now, hs3Now, hs3⟩, ⟨ddbNow, hddbNow, hddb⟩⟩ := h
  exact ⟨hlag, ⟨s3Now, hsub hs3Now, hs3⟩, ⟨ddbNow, hsub hddbNow, hddb⟩⟩

theorem reported_step (h : LinkStep R link a link') (htitled : link.Titled name)
    (hlink : link.stage = .waiting → link.Reported times) (hwaiting : link'.stage = .waiting) :
    link'.Reported (times ++ a.times) := by
  have hmono : link'.Reported times → link'.Reported (times ++ a.times) :=
    fun hreported => hreported.mono (List.subset_append_left _ _)
  cases h with
  | postLag view =>
    refine hmono ?_
    unfold Link.postLag at hwaiting ⊢
    split at hwaiting
    · next hstopped =>
      rw [hstopped] at hwaiting
      cases hwaiting
    · next hrunning =>
      rw [if_neg hrunning]
      obtain ⟨hlag, hs3, hddb⟩ := hlink hwaiting
      exact ⟨hlag, hs3, hddb⟩
  | postPause =>
    obtain ⟨hlag, hs3, hddb⟩ := hlink hwaiting
    exact hmono ⟨hlag, hs3, hddb⟩
  | postResume =>
    obtain ⟨hlag, hs3, hddb⟩ := hlink hwaiting
    exact hmono ⟨hlag, hs3, hddb⟩
  | change hfresh =>
    obtain ⟨hlag, ⟨now, hnow, hs3⟩, hddb⟩ := hlink hwaiting
    refine hmono ⟨hlag.trans ?_, ⟨now, hnow, hs3.trans ?_⟩, hddb⟩
    · unfold Link.activeLag
      rw [Option.map_map]
      rfl
    · rw [Option.map_map]
      rfl
  | publish hstage => exact (reported_publish htitled _ _ _).mono (List.subset_append_right _ _)
  | readPaused hstage =>
    have hstage' : (if link.control.paused then Stage.publish true else .s3Discover) = .waiting :=
      hwaiting
    split at hstage'
    · cases hstage'
    · cases hstage'
  | _ => cases hwaiting

/-- A cycle goes by the pause flag as it is when the flag is read. -/
theorem readAs_readPaused (h : LinkStep R link .readPaused link') :
    link'.ReadAs link.control.paused := by
  cases h with
  | readPaused hstage =>
    cases hpaused : link.control.paused with
    | true => exact rfl
    | false => exact rfl

theorem readAs_step (h : LinkStep R link a link') (ha : a ≠ .takeLag)
    (hlink : link.ReadAs paused) : link'.ReadAs paused := by
  cases h with
  | postLag view =>
    unfold Link.postLag
    split
    · exact hlink
    · exact hlink
  | takeLag hstage => exact absurd rfl ha
  | readPaused hstage =>
    rw [Link.ReadAs, hstage] at hlink
    exact hlink.elim
  | s3Discover hstage hlisted =>
    rw [Link.ReadAs, hstage] at hlink
    exact hlink
  | s3Apply hstage =>
    rw [Link.ReadAs, hstage] at hlink
    exact hlink
  | ddbDiscover hstage =>
    rw [Link.ReadAs, hstage] at hlink
    exact hlink
  | ddbApply hstage =>
    rw [Link.ReadAs, hstage] at hlink
    exact hlink.symm
  | publish hstage =>
    rw [Link.ReadAs, hstage] at hlink
    exact hlink
  | stop hstage => exact trivial
  | _ => exact hlink

theorem activeLag_of_under (hunder : link.Under policy) (hlink : link.Titled name) :
    link.activeLag = policy := by
  unfold Link.activeLag
  cases hs3 : link.s3 with
  | some s3 => exact hunder.s3 s3 hs3
  | none =>
    cases hddb : link.ddb with
    | some ddb => exact hunder.ddb ddb hddb
    | none =>
      obtain hsome | hsome := hlink.some
      · rw [hs3] at hsome
        cases hsome
      · rw [hddb] at hsome
        cases hsome

end steps

section runs

variable {R : Runtime} {name : String} {initialLag : LagPolicy}
  {buckets : Option (S3Bucket × S3Bucket)} {table : Option Table} {link : Link}
  {events before middle after : List LinkEvent}

theorem pausedBy_concat (as : List LinkEvent) (a : LinkEvent) :
    pausedBy (as ++ [a]) = a.pause?.getD (pausedBy as) := by
  rw [pausedBy, List.filterMap_append]
  cases a <;> simp [LinkEvent.pause?, pausedBy]

theorem paused_run (h : LinkRun R (.start name initialLag buckets table) events link) :
    link.control.paused = pausedBy events := by
  refine h.history (P := fun as t => t.control.paused = pausedBy as) ?_ rfl
  intro as a s t hstep hs
  rw [pausedBy_concat, ← hs]
  exact paused_eq hstep

theorem matches_run (h : LinkRun R (.start name initialLag buckets table) events link) :
    (∀ s3 ∈ link.s3, s3.Matches) ∧ ∀ ddb ∈ link.ddb, ddb.Matches := by
  refine h.invariant (P := fun t => (∀ s3 ∈ t.s3, s3.Matches) ∧ ∀ ddb ∈ t.ddb, ddb.Matches)
    ?_ ⟨?_, ?_⟩
  · rintro s a t hstep ⟨hs3, hddb⟩
    refine ⟨?_, ?_⟩
    · intro s3' hs3'
      rw [s3_step hstep] at hs3'
      obtain ⟨s3, hmem, rfl⟩ := Option.map_eq_some_iff.mp hs3'
      exact S3Link.matches_run (hs3 s3 hmem) _
    · intro ddb' hddb'
      rw [ddb_step hstep] at hddb'
      obtain ⟨ddb, hmem, rfl⟩ := Option.map_eq_some_iff.mp hddb'
      exact DdbLink.matches_run (hddb ddb hmem) _
  · intro s3 hs3
    obtain ⟨b, -, rfl⟩ := Option.map_eq_some_iff.mp hs3
    exact S3Link.matches_new initialLag b.1 b.2
  · intro ddb hddb
    obtain ⟨b, -, rfl⟩ := Option.map_eq_some_iff.mp hddb
    exact DdbLink.matches_new initialLag b

theorem titled_run (h : LinkRun R (.start name initialLag buckets table) events link)
    (hconfigured : buckets.isSome ∨ table.isSome) : link.Titled name := by
  refine h.invariant (P := fun t => t.Titled name) (fun _ _ _ hstep => titled_step hstep) ?_
  refine ⟨rfl, ?_, ?_, ?_⟩
  · simpa [Link.start, Link.new] using hconfigured
  · cases buckets <;> simp [Link.start, Link.new, LinkStatus.initial]
  · cases table <;> simp [Link.start, Link.new, LinkStatus.initial]

/-- Between two cycles the status is that of the last one, whatever happens meanwhile. -/
theorem reported_run
    (h : LinkRun R (.start name initialLag buckets table) (before ++ .readPaused :: after) link)
    (hconfigured : buckets.isSome ∨ table.isSome) (hwaiting : link.stage = .waiting) :
    link.Reported (after.flatMap LinkEvent.times) := by
  obtain ⟨s, hbefore, hrest⟩ := h.split
  obtain ⟨t, hread, hrest⟩ := (show LinkRun R s ([.readPaused] ++ after) link from hrest).split
  have htitled : t.Titled name :=
    titled_step hread.step_of_singleton (titled_run hbefore hconfigured)
  have hall := hrest.history (P := fun as t => t.Titled name ∧
    (t.stage = .waiting → t.Reported (as.flatMap LinkEvent.times))) ?_ ⟨htitled, ?_⟩
  · exact hall.2 hwaiting
  · rintro as a s t hstep ⟨htitled, hreported⟩
    rw [List.flatMap_append, List.flatMap_singleton]
    exact ⟨titled_step hstep htitled, reported_step hstep htitled hreported⟩
  · intro hwaiting
    have hstep := hread.step_of_singleton
    show t.Reported ([] ++ LinkEvent.times .readPaused)
    refine reported_step hstep (titled_run hbefore hconfigured) (fun hs => ?_) hwaiting
    cases hstep with
    | readPaused hstage =>
      rw [hstage] at hs
      cases hs

/-- What the last check of the pause flag found stays until the next one. -/
theorem readAs_run
    (h : LinkRun R (.start name initialLag buckets table) (before ++ .readPaused :: after) link)
    (hafter : .takeLag ∉ after) : link.ReadAs (pausedBy before) := by
  obtain ⟨s, hbefore, hrest⟩ := h.split
  obtain ⟨t, hread, hrest⟩ := (show LinkRun R s ([.readPaused] ++ after) link from hrest).split
  have hfound : t.ReadAs (pausedBy before) :=
    paused_run hbefore ▸ readAs_readPaused hread.step_of_singleton
  have hall := hrest.history (P := fun as t => .takeLag ∉ as → t.ReadAs (pausedBy before)) ?_
    (fun _ => hfound)
  · exact hall hafter
  · intro as a s t hstep hs hnone
    rw [List.mem_append, not_or, List.mem_singleton] at hnone
    exact readAs_step hstep (Ne.symm hnone.2) (hs hnone.1)

/-- Between two cycles the status shows the last one: the pause flag as it found it, the lag it
worked under, and for each resource that is configured how much was discovered and attempted, with
the age read in that cycle. What was posted since does not show. -/
theorem status_between_cycles (hconfigured : buckets.isSome ∨ table.isSome)
    (hrun : LinkRun R (.start name initialLag buckets table)
      (before ++ .takeLag :: (middle ++ .readPaused :: after)) link)
    (hmiddle : .takeLag ∉ middle) (hafter : .takeLag ∉ after) (hwaiting : link.stage = .waiting) :
    link.status.linkName = name ∧
      link.status.paused = pausedBy (before ++ .takeLag :: middle) ∧
      link.status.lag = .ofPolicy (postedLag initialLag before) ∧
      Option.Rel (fun status s3 => status.Accounts s3.ledger (after.flatMap LinkEvent.times))
        link.status.s3 link.s3 ∧
      Option.Rel (fun status ddb => status.Accounts ddb.ledger (after.flatMap LinkEvent.times))
        link.status.ddb link.ddb := by
  have hread : LinkRun R (.start name initialLag buckets table)
      ((before ++ .takeLag :: middle) ++ .readPaused :: after) link := by
    rwa [List.append_assoc, List.cons_append]
  have htitled := titled_run hrun hconfigured
  obtain ⟨hlag, ⟨s3Now, hs3Now, hs3⟩, ⟨ddbNow, hddbNow, hddb⟩⟩ :=
    reported_run hread hconfigured hwaiting
  obtain ⟨hmatches, hmatches'⟩ := matches_run hrun
  refine ⟨htitled.name, ?_, ?_, ?_, ?_⟩
  · have hpaused := readAs_run hread hafter
    rwa [Link.ReadAs, hwaiting] at hpaused
  · have hcycle : LinkEvent.takeLag ∉ middle ++ .readPaused :: after := by
      simp [hmiddle, hafter]
    rw [hlag, activeLag_of_under (under_run hrun hcycle) htitled]
  · rw [hs3]
    cases hlink : link.s3 with
    | none => exact .none
    | some s3 => exact .some (accounts_status (hmatches s3 hlink) hs3Now)
  · rw [hddb]
    cases hlink : link.ddb with
    | none => exact .none
    | some ddb => exact .some (accounts_status (hmatches' ddb hlink) hddbNow)

def laterVersion : S3Entry := sampleVersion "v2" [2]

/-- The rest of a cycle that lists a second version of the key: a pause is posted meanwhile, and
another lag when it is over. -/
def postedSince : List LinkEvent :=
  [.s3Discover ⟨20⟩ [.ok (pageOf [laterVersion, heldVersion])], .postPause,
    .s3Apply ⟨21⟩ (fun ref => ref.2) (fun _ => ⟨true, true, true, .delivered⟩),
    .ddbDiscover ⟨22⟩ [], .ddbApply ⟨22⟩ (fun _ => .delivered), .publish ⟨23⟩ ⟨23⟩,
    .postLag .stalled]

def postedBefore : List LinkEvent :=
  .postLag (.fixed 0) :: (cycleAt ⟨10⟩ ++ [.change laterVersion, .postLag (.fixed 5)])

/-- The first version was copied under the first lag; the second one waits. -/
theorem status_between_cycles_since : ∃ (link : Link) (status : ResourceStatus) (s3 : S3Link),
    LinkRun plainRuntime (.start "west" (.fixed ⟨5⟩) (some ([heldVersion], [])) none)
      (postedBefore ++ .takeLag :: ([] ++ .readPaused :: postedSince)) link ∧
    link.control.paused = true ∧ link.status.paused = false ∧
    link.control.lag.value = .stalled ∧ link.status.lag = .fixed 5 ∧
    link.status.s3 = some status ∧ link.s3 = some s3 ∧
    status.Accounts s3.ledger (postedSince.flatMap LinkEvent.times) ∧
    s3.ledger.queued.length = 2 ∧ s3.ledger.attempts.length = 1 := by
  obtain ⟨link, hrun, hwaiting, hpaused, hlag, s3, hs3, hqueued, hattempts⟩ : ∃ link : Link,
      LinkRun plainRuntime (.start "west" (.fixed ⟨5⟩) (some ([heldVersion], [])) none)
        (postedBefore ++ .takeLag :: ([] ++ .readPaused :: postedSince)) link ∧
      link.stage = .waiting ∧ link.control.paused = true ∧ link.control.lag.value = .stalled ∧
      ∃ s3, link.s3 = some s3 ∧ s3.ledger.queued.length = 2 ∧ s3.ledger.attempts.length = 1 := by
    refine ⟨_, .cons (.postLag _) (.cons (.takeLag rfl) (.cons (.readPaused rfl)
      (.cons (.s3Discover rfl ?_) (.cons (.s3Apply rfl) (.cons (.ddbDiscover rfl)
      (.cons (.ddbApply rfl) (.cons (.publish rfl) (.cons (.change ?_) (.cons (.postLag _)
      (.cons (.takeLag rfl) (.cons (.readPaused rfl) (.cons (.s3Discover rfl ?_)
      (.cons .postPause (.cons (.s3Apply rfl) (.cons (.ddbDiscover rfl) (.cons (.ddbApply rfl)
      (.cons (.publish rfl) (.cons (.postLag _) .refl)))))))))))))))))), rfl, rfl, rfl,
      _, rfl, by decide +kernel, by decide +kernel⟩
    · intro s3 hs3
      cases hs3
      exact listedOffers_heldPages
    · intro s3 hs3
      cases hs3
      decide +kernel
    · intro s3 hs3
      cases hs3
      intro offer hoffer
      obtain rfl | hoffer := List.mem_cons.mp hoffer
      · exact ⟨laterVersion, by decide +kernel, rfl⟩
      · exact ⟨heldVersion, by decide +kernel, List.mem_singleton.mp hoffer⟩
  obtain ⟨-, hread, hunder, hrel, -⟩ := status_between_cycles (Or.inl rfl) hrun (by simp)
    (by simp [postedSince]) hwaiting
  rw [hs3] at hrel
  cases hstatus : link.status.s3 with
  | none =>
    rw [hstatus] at hrel
    cases hrel
  | some status =>
    rw [hstatus] at hrel
    cases hrel with
    | some haccounts =>
      exact ⟨link, status, s3, hrun, hpaused, hread, hlag,
        hunder.trans (LagPolicyView.ofPolicy_policy (.fixed 5)), hstatus, hs3, haccounts, hqueued,
        hattempts⟩

end runs

end DevReplicator
