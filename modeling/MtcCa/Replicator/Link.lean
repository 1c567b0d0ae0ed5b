import MtcCa.Lib.Saturating
import MtcCa.Lib.Transition
import MtcCa.Replicator.Scheduling
import MtcCa.Replicator.VersionOrder

/-! One replication link: its control endpoint (`crates/dev-replicator/src/control.rs`) and the
poll loop over its pollers (`crates/dev-replicator/src/link.rs`). -/
namespace DevReplicator

open Cloud Cloud.Dynamo
open Transition (Trace)

/-- A lag policy as the control endpoint shows it. -/
inductive LagPolicyView where
  | fixed (ms : UInt64)
  | stalled
deriving DecidableEq

def LagPolicyView.ofPolicy : LagPolicy → LagPolicyView
  | .fixed d => .fixed (Saturating.saturate (d.nanos / 10 ^ 6))
  | .stalled => .stalled

def LagPolicyView.policy : LagPolicyView → LagPolicy
  | .fixed ms => .fixed ⟨ms.toNat * 10 ^ 6⟩
  | .stalled => .stalled

/-- The answer to a change of the lag shows the lag that was asked for. -/
theorem LagPolicyView.ofPolicy_policy (view : LagPolicyView) : ofPolicy view.policy = view := by
  cases view with
  | stalled => rfl
  | fixed ms =>
    have hms : ms.toNat * 10 ^ 6 / 10 ^ 6 = ms.toNat := Nat.mul_div_cancel _ (by norm_num)
    have hsaturate := Saturating.toNat_saturate_of_lt ms.toNat_lt
    rw [policy, ofPolicy, hms]
    exact congrArg _ (UInt64.toNat_inj.mp hsaturate)

/-- What `/status` answers. -/
structure LinkStatus where
  linkName : String
  paused : Bool
  lag : LagPolicyView
  s3 : Option ResourceStatus
  ddb : Option ResourceStatus
deriving DecidableEq

/-- Starting snapshot before the first cycle. -/
def LinkStatus.initial (linkName : String) (lag : LagPolicy) (hasS3 hasDdb : Bool) :
    LinkStatus where
  linkName := linkName
  paused := false
  lag := .ofPolicy lag
  s3 := if hasS3 then some ⟨0, 0, none⟩ else none
  ddb := if hasDdb then some ⟨0, 0, none⟩ else none

/-- A watch channel with one receiver: the value sent last, and whether it is still to be seen. -/
structure LagChannel where
  value : LagPolicy
  changed : Bool

/-- Runtime controls the loop reads every cycle. -/
structure ControlHandle where
  lag : LagChannel
  paused : Bool

def ControlHandle.new (initialLag : LagPolicy) : ControlHandle := ⟨⟨initialLag, false⟩, false⟩

/-- Where the loop stands. -/
inductive Stage where
  /-- Asleep between two cycles. -/
  | waiting
  /-- The lag was picked up; the pause flag is read next. -/
  | lagTaken
  | s3Discover
  | s3Apply
  | ddbDiscover
  | ddbApply
  /-- The status is published next. -/
  | publish (paused : Bool)
  | stopped
deriving DecidableEq

structure Link where
  name : String
  control : ControlHandle
  status : LinkStatus
  s3 : Option S3Link
  ddb : Option DdbLink
  stage : Stage

namespace Link

def new (name : String) (initialLag : LagPolicy) (s3 : Option S3Link) (ddb : Option DdbLink) :
    Link where
  name := name
  control := .new initialLag
  status := .initial name initialLag s3.isSome ddb.isSome
  s3 := s3
  ddb := ddb
  stage := .waiting

/-- The link of a process, whose pollers begin with the lag of the link. -/
def start (name : String) (initialLag : LagPolicy) (buckets : Option (S3Bucket × S3Bucket))
    (table : Option Table) : Link :=
  .new name initialLag (buckets.map (fun b => .new initialLag b.1 b.2))
    (table.map (.new initialLag))

/-- Sends a lag to the loop; after the loop has ended it is not sent. -/
def postLag (view : LagPolicyView) (link : Link) : Link :=
  if link.stage = .stopped then link
  else { link with control := { link.control with lag := ⟨view.policy, true⟩ } }

def setPaused (paused : Bool) (link : Link) : Link :=
  { link with control := { link.control with paused := paused } }

/-- Picks up a lag that was sent since the last cycle. -/
def takeLag (R : Runtime) (link : Link) : Link :=
  if link.control.lag.changed then
    { link with
      control := { link.control with lag := { link.control.lag with changed := false } }
      s3 := link.s3.map (·.step (.setLagPolicy link.control.lag.value))
      ddb := link.ddb.map (·.step R (.setLagPolicy link.control.lag.value)) }
  else link

def activeLag (link : Link) : LagPolicy :=
  ((link.s3.map (·.poller.scheduler.policy)).or (link.ddb.map (·.poller.scheduler.policy))).getD
    .immediate

/-- The status a cycle ends with; each poller reads the clock for the age of its oldest change. -/
def publishStatus (link : Link) (paused : Bool) (s3Now ddbNow : SystemTime) : LinkStatus where
  linkName := link.status.linkName
  paused := paused
  lag := .ofPolicy link.activeLag
  s3 := (link.s3.map (·.poller.scheduler.status s3Now)).or link.status.s3
  ddb := (link.ddb.map (·.poller.scheduler.status ddbNow)).or link.status.ddb

end Link

/-- What happens to a link: calls of its control endpoint, changes of its source bucket, and the
steps of its loop. -/
inductive LinkEvent where
  | postLag (view : LagPolicyView)
  | postPause
  | postResume
  | change (entry : S3Entry)
  | takeLag
  | readPaused
  | s3Discover (now : SystemTime) (pages : List (Except ReplicatorError ListPage))
  | s3Apply (now : SystemTime) (freshId : S3Key → String) (fate : S3Key → S3Fate)
  | ddbDiscover (now : SystemTime) (pages : List (Except ReplicatorError (List ScannedItem)))
  | ddbApply (now : SystemTime) (fate : DdbKey → Fate)
  | publish (s3Now ddbNow : SystemTime)
  | stop

/-- The changes that a listing reports. -/
def listedOffers (pages : List (Except ReplicatorError ListPage)) :
    List (S3Key × S3VersionEvent) :=
  (S3Poller.readPages pages).flatMap S3Poller.pageOffers

/-- The steps of a link. Version ids are fresh, a listing reports entries that exist, and only the
link writes to its targets. Where a resource is not configured its parts of a cycle do nothing. -/
inductive LinkStep (R : Runtime) (link : Link) : LinkEvent → Link → Prop where
  | postLag (view : LagPolicyView) : LinkStep R link (.postLag view) (link.postLag view)
  | postPause : LinkStep R link .postPause (link.setPaused true)
  | postResume : LinkStep R link .postResume (link.setPaused false)
  | change {entry : S3Entry} (hfresh : ∀ s3 ∈ link.s3, entry.ref ∉ s3.source.map S3Entry.ref) :
      LinkStep R link (.change entry) { link with s3 := link.s3.map (·.step (.change entry)) }
  | takeLag (hstage : link.stage = .waiting) :
      LinkStep R link .takeLag { link.takeLag R with stage := .lagTaken }
  | readPaused (hstage : link.stage = .lagTaken) :
      LinkStep R link .readPaused
        { link with stage := if link.control.paused then .publish true else .s3Discover }
  | s3Discover {now : SystemTime} {pages : List (Except ReplicatorError ListPage)}
      (hstage : link.stage = .s3Discover)
      (hlisted : ∀ s3 ∈ link.s3, ∀ offer ∈ listedOffers pages, ∃ e ∈ s3.source,
        offer = (e.ref, e.event)) :
      LinkStep R link (.s3Discover now pages)
        { link with s3 := link.s3.map (·.step (.discover now pages)), stage := .s3Apply }
  | s3Apply {now : SystemTime} {freshId : S3Key → String} {fate : S3Key → S3Fate}
      (hstage : link.stage = .s3Apply) :
      LinkStep R link (.s3Apply now freshId fate)
        { link with s3 := link.s3.map (·.step (.applyDue now freshId fate)), stage := .ddbDiscover }
  | ddbDiscover {now : SystemTime} {pages : List (Except ReplicatorError (List ScannedItem))}
      (hstage : link.stage = .ddbDiscover) :
      LinkStep R link (.ddbDiscover now pages)
        { link with ddb := link.ddb.map (·.step R (.discover now pages)), stage := .ddbApply }
  | ddbApply {now : SystemTime} {fate : DdbKey → Fate} (hstage : link.stage = .ddbApply) :
      LinkStep R link (.ddbApply now fate)
        { link with ddb := link.ddb.map (·.step R (.applyDue now fate)), stage := .publish false }
  | publish {paused : Bool} {s3Now ddbNow : SystemTime} (hstage : link.stage = .publish paused) :
      LinkStep R link (.publish s3Now ddbNow)
        { link with status := link.publishStatus paused s3Now ddbNow, stage := .waiting }
  | stop (hstage : link.stage = .waiting) : LinkStep R link .stop { link with stage := .stopped }

namespace LinkEvent

/-- What an event does to the S3 poller. -/
def s3Actions (control : ControlHandle) : LinkEvent → List S3Action
  | change entry => [.change entry]
  | takeLag => if control.lag.changed then [.setLagPolicy control.lag.value] else []
  | s3Discover now pages => [.discover now pages]
  | s3Apply now freshId fate => [.applyDue now freshId fate]
  | _ => []

/-- What an event does to the DynamoDB poller. -/
def ddbActions (control : ControlHandle) : LinkEvent → List DdbAction
  | takeLag => if control.lag.changed then [.setLagPolicy control.lag.value] else []
  | ddbDiscover now pages => [.discover now pages]
  | ddbApply now fate => [.applyDue now fate]
  | _ => []

/-- The clock readings of an event. -/
def times : LinkEvent → List SystemTime
  | s3Discover now _ => [now]
  | s3Apply now _ _ => [now]
  | ddbDiscover now _ => [now]
  | ddbApply now _ => [now]
  | publish s3Now ddbNow => [s3Now, ddbNow]
  | _ => []

/-- The instant of an apply pass of the S3 poller. -/
def s3Applies? : LinkEvent → Option SystemTime
  | s3Apply now _ _ => some now
  | _ => none

def ddbApplies? : LinkEvent → Option SystemTime
  | ddbApply now _ => some now
  | _ => none

def lag? : LinkEvent → Option LagPolicy
  | postLag view => some view.policy
  | _ => none

end LinkEvent

/-- The lag posted last. -/
def postedLag (initialLag : LagPolicy) (events : List LinkEvent) : LagPolicy :=
  (events.filterMap LinkEvent.lag?).getLastD initialLag

/-- The clock does not go back. -/
def ClockForward (events : List LinkEvent) : Prop :=
  (events.flatMap LinkEvent.times).Pairwise (· ≤ ·)

instance (events : List LinkEvent) : Decidable (ClockForward events) :=
  inferInstanceAs (Decidable (List.Pairwise _ _))

/-- What was queued was queued in the order of its discovery, at clock readings of the past. -/
structure Ledger.Ordered {K E : Type} (l : Ledger K E) (times : List SystemTime) : Prop where
  sorted : l.queued.Pairwise (fun d d' => d.discoveredAt ≤ d'.discoveredAt)
  past : ∀ d ∈ l.queued, d.discoveredAt ∈ times

section ordered

variable {K E : Type} [DecidableEq K] {l l' : Ledger K E} {s : LagScheduler K E}
  {times times' : List SystemTime} {now : SystemTime}

omit [DecidableEq K] in
theorem Ledger.Ordered.later (h : l.Ordered times) (hqueued : l'.queued = l.queued)
    (times' : List SystemTime) : l'.Ordered (times ++ times') := by
  refine ⟨hqueued ▸ h.sorted, ?_⟩
  intro d hd
  rw [hqueued] at hd
  exact List.mem_append_left _ (h.past d hd)

/-- A discovery of now goes behind what was discovered. -/
theorem Ledger.Ordered.recordQueued (h : l.Ordered times) (hnow : ∀ t ∈ times, t ≤ now)
    (offers : List (K × E)) :
    (l.recordQueued s (s.offerAll now offers)).Ordered (times ++ [now]) := by
  obtain ⟨new, hpending, -, -, hsub, -⟩ := s.offerAll_spec now offers
  have hnew : ∀ d ∈ new, d.discoveredAt = now := by
    intro d hd
    obtain ⟨offer, -, rfl⟩ := List.mem_map.mp (hsub.subset hd)
    rfl
  have hqueued : (l.recordQueued s (s.offerAll now offers)).queued = l.queued ++ new := by
    rw [Ledger.recordQueued, hpending, List.drop_left]
  refine ⟨?_, ?_⟩
  · rw [hqueued, List.pairwise_append]
    refine ⟨h.sorted, ?_, ?_⟩
    · apply List.pairwise_of_forall_mem_list
      intro d hd d' hd'
      rw [hnew d hd, hnew d' hd']
    · intro d hd d' hd'
      rw [hnew d' hd']
      exact hnow _ (h.past d hd)
  · intro d hd
    rw [hqueued] at hd
    rcases List.mem_append.mp hd with hd | hd
    · exact List.mem_append_left _ (h.past d hd)
    · rw [hnew d hd]
      exact List.mem_append_right _ (List.mem_singleton_self now)

/-- So is what is pending. -/
theorem Ledger.Matches.pending_sorted (h : l.Matches s) (hordered : l.Ordered times) :
    s.pending.Pairwise (fun d d' => d.discoveredAt ≤ d'.discoveredAt) := by
  have hsorted := hordered.sorted
  rw [h.queued] at hsorted
  exact (List.pairwise_append.mp hsorted).2.1

end ordered

section steps

variable {R : Runtime} {link link' : Link} {a : LinkEvent} {as : List LinkEvent}

theorem postedLag_concat (initialLag : LagPolicy) (as : List LinkEvent) (a : LinkEvent) :
    postedLag initialLag (as ++ [a]) = a.lag?.getD (postedLag initialLag as) := by
  rw [postedLag, List.filterMap_append]
  cases a <;> simp [LinkEvent.lag?, postedLag]

theorem ClockForward.concat (h : ClockForward (as ++ [a])) :
    ClockForward as ∧ ∀ t ∈ as.flatMap LinkEvent.times, ∀ now ∈ a.times, t ≤ now := by
  rw [ClockForward, List.flatMap_append, List.flatMap_singleton, List.pairwise_append] at h
  exact ⟨h.1, h.2.2⟩

/-- Every step of a link is a step of its S3 poller, or none. -/
theorem s3_step (h : LinkStep R link a link') :
    link'.s3 = link.s3.map (·.run (a.s3Actions link.control)) := by
  have hnone : link.s3 = link.s3.map (·.run []) := Option.map_id'.symm
  cases h with
  | postLag view =>
    rw [Link.postLag]
    split
    · exact hnone
    · exact hnone
  | takeLag hstage =>
    simp only [Link.takeLag, LinkEvent.s3Actions]
    split
    · rfl
    · exact hnone
  | change hfresh => rfl
  | s3Discover hstage hlisted => rfl
  | s3Apply hstage => rfl
  | postPause => exact hnone
  | postResume => exact hnone
  | readPaused hstage => exact hnone
  | ddbDiscover hstage => exact hnone
  | ddbApply hstage => exact hnone
  | publish hstage => exact hnone
  | stop hstage => exact hnone

theorem ddb_step (h : LinkStep R link a link') :
    link'.ddb = link.ddb.map (·.run R (a.ddbActions link.control)) := by
  have hnone : link.ddb = link.ddb.map (·.run R []) := Option.map_id'.symm
  cases h with
  | postLag view =>
    rw [Link.postLag]
    split
    · exact hnone
    · exact hnone
  | takeLag hstage =>
    simp only [Link.takeLag, LinkEvent.ddbActions]
    split
    · rfl
    · exact hnone
  | ddbDiscover hstage => rfl
  | ddbApply hstage => rfl
  | postPause => exact hnone
  | postResume => exact hnone
  | change hfresh => exact hnone
  | readPaused hstage => exact hnone
  | s3Discover hstage hlisted => exact hnone
  | s3Apply hstage => exact hnone
  | publish hstage => exact hnone
  | stop hstage => exact hnone

theorem S3Link.policy_step {s3 : S3Link} (action : S3Action)
    (h : ∀ policy, action ≠ .setLagPolicy policy) :
    (s3.step action).poller.scheduler.policy = s3.poller.scheduler.policy := by
  cases action with
  | change entry => rfl
  | discover now pages =>
    obtain ⟨_, -, -, hpolicy, -⟩ := s3.poller.scheduler.offerAll_spec now (listedOffers pages)
    rw [listedOffers, ← S3Poller.scheduler_discover] at hpolicy
    exact hpolicy
  | applyDue now freshId fate =>
    obtain ⟨-, -, hpolicy⟩ := LagScheduler.drainDue_spec
      (show s3.poller.scheduler.drainDue now = (_, _) from rfl)
    exact hpolicy
  | setLagPolicy policy => exact absurd rfl (h policy)

theorem DdbLink.policy_step {ddb : DdbLink} (action : DdbAction)
    (h : ∀ policy, action ≠ .setLagPolicy policy) :
    (ddb.step R action).poller.scheduler.policy = ddb.poller.scheduler.policy := by
  cases action with
  | discover now pages =>
    obtain ⟨_, -, -, hpolicy, -⟩ :=
      ddb.poller.scheduler.offerAll_spec now (ddb.poller.offers R pages)
    rw [← DdbPoller.scheduler_discover] at hpolicy
    exact hpolicy
  | applyDue now fate =>
    obtain ⟨-, -, hpolicy⟩ := LagScheduler.drainDue_spec
      (show ddb.poller.scheduler.drainDue now = (_, _) from rfl)
    exact hpolicy
  | setLagPolicy policy => exact absurd rfl (h policy)

/-- Both pollers work under a policy. -/
structure Link.Under (link : Link) (policy : LagPolicy) : Prop where
  s3 : ∀ s3 ∈ link.s3, s3.poller.scheduler.policy = policy
  ddb : ∀ ddb ∈ link.ddb, ddb.poller.scheduler.policy = policy

/-- Only a cycle that begins changes the policy of the pollers. -/
theorem under_step {policy : LagPolicy} (h : LinkStep R link a link') (ha : a ≠ .takeLag)
    (hunder : link.Under policy) : link'.Under policy := by
  refine ⟨?_, ?_⟩
  · intro s3 hs3
    rw [s3_step h] at hs3
    obtain ⟨s3, hlink, rfl⟩ := Option.map_eq_some_iff.mp hs3
    rw [← hunder.s3 s3 hlink]
    cases a with
    | takeLag => exact absurd rfl ha
    | change entry => exact S3Link.policy_step (.change entry) (by simp)
    | s3Discover now pages => exact S3Link.policy_step (.discover now pages) (by simp)
    | s3Apply now freshId fate =>
      exact S3Link.policy_step (.applyDue now freshId fate) (by simp)
    | _ => rfl
  · intro ddb hddb
    rw [ddb_step h] at hddb
    obtain ⟨ddb, hlink, rfl⟩ := Option.map_eq_some_iff.mp hddb
    rw [← hunder.ddb ddb hlink]
    cases a with
    | takeLag => exact absurd rfl ha
    | ddbDiscover now pages => exact DdbLink.policy_step (.discover now pages) (by simp)
    | ddbApply now fate => exact DdbLink.policy_step (.applyDue now fate) (by simp)
    | _ => rfl

/-- The pollers work under the lag sent last, unless it is still to be seen. -/
def Link.Synced (link : Link) : Prop :=
  link.control.lag.changed = false → link.Under link.control.lag.value

theorem value_takeLag : (link.takeLag R).control.lag.value = link.control.lag.value := by
  unfold Link.takeLag
  split
  · rfl
  · rfl

/-- A cycle begins by bringing the pollers under the lag sent last. -/
theorem under_takeLag (hsynced : link.Synced) :
    (link.takeLag R).Under link.control.lag.value ∧ (link.takeLag R).Synced := by
  have hunder : (link.takeLag R).Under link.control.lag.value := by
    unfold Link.takeLag
    split
    · refine ⟨?_, ?_⟩
      · intro s3 hs3
        obtain ⟨s3, -, rfl⟩ := Option.map_eq_some_iff.mp hs3
        rfl
      · intro ddb hddb
        obtain ⟨ddb, -, rfl⟩ := Option.map_eq_some_iff.mp hddb
        rfl
    · next hchanged => exact hsynced (Bool.eq_false_of_not_eq_true hchanged)
  refine ⟨hunder, ?_⟩
  intro _
  rw [value_takeLag]
  exact hunder

/-- Between the beginnings of cycles the lag to be seen changes by a new one only. -/
theorem lag_step (h : LinkStep R link a link') (ha : a ≠ .takeLag) :
    link'.control.lag = link.control.lag ∨
      ∃ view, a = .postLag view ∧ link'.control.lag = ⟨view.policy, true⟩ := by
  cases h with
  | postLag view =>
    unfold Link.postLag
    split
    · exact Or.inl rfl
    · exact Or.inr ⟨view, rfl, rfl⟩
  | takeLag hstage => exact absurd rfl ha
  | _ => exact Or.inl rfl

theorem synced_step (h : LinkStep R link a link') (hsynced : link.Synced) : link'.Synced := by
  by_cases ha : a = .takeLag
  · subst ha
    cases h with
    | takeLag hstage =>
      intro hchanged
      have hunder := (under_takeLag (R := R) hsynced).2 hchanged
      exact ⟨hunder.s3, hunder.ddb⟩
  · rcases lag_step h ha with hlag | ⟨view, -, hlag⟩
    · intro hchanged
      rw [hlag] at hchanged ⊢
      exact under_step h ha (hsynced hchanged)
    · intro hchanged
      rw [hlag] at hchanged
      cases hchanged

/-- A link that has stopped stays so. -/
theorem stopped_step (h : LinkStep R link a link') (hstopped : link.stage = .stopped) :
    link'.stage = .stopped := by
  cases h with
  | postLag view =>
    rw [Link.postLag, if_pos hstopped]
    exact hstopped
  | postPause => exact hstopped
  | postResume => exact hstopped
  | change hfresh => exact hstopped
  | _ => simp_all

end steps

/-- The runs of a link. -/
abbrev LinkRun (R : Runtime) (link : Link) (events : List LinkEvent) (link' : Link) : Prop :=
  Trace (LinkStep R) link events link'

/-- Both pollers have the ledger of their queue. -/
structure Link.Booked (link : Link) (times : List SystemTime) : Prop where
  s3 : ∀ s3 ∈ link.s3, s3.Matches ∧ s3.ledger.Ordered times
  ddb : ∀ ddb ∈ link.ddb, ddb.Matches ∧ ddb.ledger.Ordered times

section runs

variable {R : Runtime} {name : String} {initialLag : LagPolicy}
  {buckets : Option (S3Bucket × S3Bucket)} {table : Option Table} {link link' : Link}
  {a : LinkEvent} {events : List LinkEvent}

theorem S3Link.ordered_run {s3 : S3Link} {control : ControlHandle} {times : List SystemTime}
    (h : s3.ledger.Ordered times) (hnow : ∀ t ∈ times, ∀ now ∈ a.times, t ≤ now) :
    (s3.run (a.s3Actions control)).ledger.Ordered (times ++ a.times) := by
  cases a with
  | s3Discover now pages =>
    have hordered := h.recordQueued (s := s3.poller.scheduler)
      (fun t ht => hnow t ht now (List.mem_singleton_self now)) (listedOffers pages)
    rw [listedOffers, ← S3Poller.scheduler_discover] at hordered
    exact hordered
  | takeLag =>
    refine h.later ?_ _
    simp only [LinkEvent.s3Actions]
    split
    · rfl
    · rfl
  | s3Apply now freshId fate =>
    have hqueued : (s3.step (.applyDue now freshId fate)).ledger.queued = s3.ledger.queued := rfl
    exact h.later hqueued _
  | _ => exact h.later rfl _

theorem DdbLink.ordered_run {ddb : DdbLink} {control : ControlHandle} {times : List SystemTime}
    (h : ddb.ledger.Ordered times) (hnow : ∀ t ∈ times, ∀ now ∈ a.times, t ≤ now) :
    (ddb.run R (a.ddbActions control)).ledger.Ordered (times ++ a.times) := by
  cases a with
  | ddbDiscover now pages =>
    have hordered := h.recordQueued (s := ddb.poller.scheduler)
      (fun t ht => hnow t ht now (List.mem_singleton_self now)) (ddb.poller.offers R pages)
    rw [← DdbPoller.scheduler_discover] at hordered
    exact hordered
  | takeLag =>
    refine h.later ?_ _
    simp only [LinkEvent.ddbActions]
    split
    · rfl
    · rfl
  | ddbApply now fate =>
    have hqueued : (ddb.step R (.applyDue now fate)).ledger.queued = ddb.ledger.queued := rfl
    exact h.later hqueued _
  | _ => exact h.later rfl _

theorem booked_step {times : List SystemTime} (h : LinkStep R link a link')
    (hbooked : link.Booked times) (hnow : ∀ t ∈ times, ∀ now ∈ a.times, t ≤ now) :
    link'.Booked (times ++ a.times) := by
  refine ⟨?_, ?_⟩
  · intro s3 hs3
    rw [s3_step h] at hs3
    obtain ⟨s3, hlink, rfl⟩ := Option.map_eq_some_iff.mp hs3
    obtain ⟨hmatches, hordered⟩ := hbooked.s3 s3 hlink
    exact ⟨S3Link.matches_run hmatches _, S3Link.ordered_run hordered hnow⟩
  · intro ddb hddb
    rw [ddb_step h] at hddb
    obtain ⟨ddb, hlink, rfl⟩ := Option.map_eq_some_iff.mp hddb
    obtain ⟨hmatches, hordered⟩ := hbooked.ddb ddb hlink
    exact ⟨DdbLink.matches_run hmatches _, DdbLink.ordered_run hordered hnow⟩

theorem booked_run (h : LinkRun R (.start name initialLag buckets table) events link)
    (hclock : ClockForward events) : link.Booked (events.flatMap LinkEvent.times) := by
  refine h.history (P := fun as t => ClockForward as → t.Booked (as.flatMap LinkEvent.times))
    ?_ ?_ hclock
  · intro as a s t hstep hs hclock
    obtain ⟨hbefore, hnow⟩ := hclock.concat
    rw [List.flatMap_append, List.flatMap_singleton]
    exact booked_step hstep (hs hbefore) hnow
  · intro _
    refine ⟨?_, ?_⟩
    · intro s3 hs3
      obtain ⟨b, -, rfl⟩ := Option.map_eq_some_iff.mp hs3
      exact ⟨S3Link.matches_new initialLag b.1 b.2, List.Pairwise.nil,
        fun d hd => absurd hd List.not_mem_nil⟩
    · intro ddb hddb
      obtain ⟨b, -, rfl⟩ := Option.map_eq_some_iff.mp hddb
      exact ⟨DdbLink.matches_new initialLag b, List.Pairwise.nil,
        fun d hd => absurd hd List.not_mem_nil⟩

theorem synced_start : (Link.start name initialLag buckets table).Synced := by
  intro _
  refine ⟨?_, ?_⟩
  · intro s3 hs3
    obtain ⟨b, -, rfl⟩ := Option.map_eq_some_iff.mp hs3
    rfl
  · intro ddb hddb
    obtain ⟨b, -, rfl⟩ := Option.map_eq_some_iff.mp hddb
    rfl

theorem synced_run (h : LinkRun R link events link') (hsynced : link.Synced) : link'.Synced :=
  h.invariant (fun _ _ _ hstep => synced_step hstep) hsynced

/-- While the loop runs, the lag sent last is the one posted last. -/
theorem value_run (h : LinkRun R (.start name initialLag buckets table) events link)
    (hrunning : link.stage ≠ .stopped) :
    link.control.lag.value = postedLag initialLag events := by
  refine h.history (P := fun as t => t.stage ≠ .stopped →
    t.control.lag.value = postedLag initialLag as) ?_ (fun _ => rfl) hrunning
  intro as a s t hstep hs hrunning
  have hbefore : s.stage ≠ .stopped := fun hstopped => hrunning (stopped_step hstep hstopped)
  rw [postedLag_concat]
  cases hstep with
  | postLag view =>
    rw [Link.postLag, if_neg hbefore]
    rfl
  | takeLag hstage => exact value_takeLag.trans (hs hbefore)
  | _ => exact hs hbefore

/-- Since a cycle began the pollers work under the lag that had been posted by then. -/
theorem under_run {before between : List LinkEvent}
    (h : LinkRun R (.start name initialLag buckets table) (before ++ .takeLag :: between) link)
    (hcycle : .takeLag ∉ between) : link.Under (postedLag initialLag before) := by
  obtain ⟨s, hbefore, hafter⟩ := h.split
  obtain ⟨t, htake, hbetween⟩ :=
    (show LinkRun R s ([.takeLag] ++ between) link from hafter).split
  have hsynced : s.Synced := synced_run hbefore synced_start
  have hunder : t.Under (postedLag initialLag before) := by
    cases htake.step_of_singleton with
    | takeLag hstage =>
      have hvalue := value_run hbefore (by rw [hstage]; simp)
      obtain ⟨htaken, -⟩ := under_takeLag (R := R) hsynced
      rw [hvalue] at htaken
      exact ⟨htaken.s3, htaken.ddb⟩
  have hall := hbetween.history (P := fun as t => .takeLag ∉ as →
    t.Under (postedLag initialLag before)) ?_ (fun _ => hunder)
  · exact hall hcycle
  · intro as a s t hstep hs hnone
    rw [List.mem_append, not_or, List.mem_singleton] at hnone
    exact under_step hstep (Ne.symm hnone.2) (hs hnone.1)

end runs

/-- What leaves a queue: in an apply pass what is due then, from the front on, else nothing. -/
def Releases {K E : Type} (policy : LagPolicy) (pending due : List (Discovered K E)) :
    Option SystemTime → Prop
  | some now => due <+: pending ∧ LagScheduler.ReleasesDue policy now pending due
  | none => due = []

/-- What a step of a link attempts, if it works under a policy. -/
structure Attempts (policy : LagPolicy) (a : LinkEvent) (link link' : Link) : Prop where
  s3 : ∀ s3 ∈ link.s3, ∃ s3' ∈ link'.s3, ∃ attempts,
    s3'.ledger.attempts = s3.ledger.attempts ++ attempts ∧
      Releases policy s3.poller.scheduler.pending (attempts.map Prod.fst) a.s3Applies?
  ddb : ∀ ddb ∈ link.ddb, ∃ ddb' ∈ link'.ddb, ∃ attempts,
    ddb'.ledger.attempts = ddb.ledger.attempts ++ attempts ∧
      Releases policy ddb.poller.scheduler.pending (attempts.map Prod.fst) a.ddbApplies?

section lag

variable {R : Runtime} {name : String} {initialLag policy : LagPolicy}
  {buckets : Option (S3Bucket × S3Bucket)} {table : Option Table} {link link' : Link}
  {a : LinkEvent} {before between : List LinkEvent}

theorem releases_drainDue {K E : Type} [DecidableEq K] {l : Ledger K E} {s : LagScheduler K E}
    {times : List SystemTime} (hmatches : l.Matches s) (hordered : l.Ordered times)
    (now : SystemTime) : Releases s.policy s.pending (s.drainDue now).1 (some now) := by
  obtain ⟨hpending, -⟩ := LagScheduler.drainDue_spec (show s.drainDue now = (_, _) from rfl)
  refine ⟨⟨_, hpending.symm⟩, ?_⟩
  exact LagScheduler.releasesDue_drainDue (hmatches.pending_sorted hordered)

/-- Outside of its apply pass a poller attempts nothing. -/
theorem S3Link.attempts_run {s3 : S3Link} (control : ControlHandle) (ha : a.s3Applies? = none) :
    (s3.run (a.s3Actions control)).ledger.attempts = s3.ledger.attempts := by
  cases a with
  | s3Apply now freshId fate => cases ha
  | takeLag =>
    simp only [LinkEvent.s3Actions]
    split
    · rfl
    · rfl
  | _ => rfl

theorem DdbLink.attempts_run {ddb : DdbLink} (control : ControlHandle)
    (ha : a.ddbApplies? = none) :
    (ddb.run R (a.ddbActions control)).ledger.attempts = ddb.ledger.attempts := by
  cases a with
  | ddbApply now fate => cases ha
  | takeLag =>
    simp only [LinkEvent.ddbActions]
    split
    · rfl
    · rfl
  | _ => rfl

/-- In every run, whatever is posted when, a cycle attempts exactly what is due under the lag
posted last when the cycle began. -/
theorem posted_lag_respected
    (hrun : LinkRun R (.start name initialLag buckets table) (before ++ .takeLag :: between) link)
    (hcycle : .takeLag ∉ between) (hclock : ClockForward (before ++ .takeLag :: between))
    (hstep : LinkStep R link a link') : Attempts (postedLag initialLag before) a link link' := by
  have hunder := under_run hrun hcycle
  have hbooked := booked_run hrun hclock
  refine ⟨?_, ?_⟩
  · intro s3 hs3
    have hs3' : s3.run (a.s3Actions link.control) ∈ link'.s3 := by
      rw [s3_step hstep]
      exact Option.mem_map_of_mem _ hs3
    refine ⟨_, hs3', ?_⟩
    obtain ⟨hmatches, hordered⟩ := hbooked.s3 s3 hs3
    cases happlies : a.s3Applies? with
    | none =>
      refine ⟨[], ?_, rfl⟩
      rw [List.append_nil, S3Link.attempts_run _ happlies]
    | some now =>
      cases a with
      | s3Apply now freshId fate =>
        cases happlies
        refine ⟨_, rfl, ?_⟩
        rw [map_fst_applyAll, ← hunder.s3 s3 hs3]
        exact releases_drainDue hmatches hordered now
      | _ => cases happlies
  · intro ddb hddb
    have hddb' : ddb.run R (a.ddbActions link.control) ∈ link'.ddb := by
      rw [ddb_step hstep]
      exact Option.mem_map_of_mem _ hddb
    refine ⟨_, hddb', ?_⟩
    obtain ⟨hmatches, hordered⟩ := hbooked.ddb ddb hddb
    cases happlies : a.ddbApplies? with
    | none =>
      refine ⟨[], ?_, rfl⟩
      rw [List.append_nil, DdbLink.attempts_run _ happlies]
    | some now =>
      cases a with
      | ddbApply now fate =>
        cases happlies
        refine ⟨_, rfl, ?_⟩
        rw [map_fst_applyAll, ← hunder.ddb ddb hddb]
        exact releases_drainDue hmatches hordered now
      | _ => cases happlies

/-- A shorter lag is posted just after a cycle began, which lists one version. -/
def lateLag : List LinkEvent :=
  [.postLag (.fixed 0), .readPaused, .s3Discover ⟨10⟩ [.ok (pageOf [sampleVersion "v1" [1]])]]

/-- The pass two nanoseconds later still works under the five of the start. -/
theorem posted_lag_respected_late : ∃ link link' : Link,
    LinkRun plainRuntime (.start "west" (.fixed ⟨5⟩) (some ([sampleVersion "v1" [1]], [])) none)
      ([] ++ .takeLag :: lateLag) link ∧
    LinkStep plainRuntime link
      (.s3Apply ⟨12⟩ (fun ref => ref.2) (fun _ => ⟨true, true, true, .delivered⟩)) link' ∧
    link.control.lag.value = .fixed ⟨0⟩ ∧ ∃ s3 ∈ link'.s3, s3.ledger.attempts = [] := by
  have hlisted : ∀ offer ∈ listedOffers [.ok (pageOf [sampleVersion "v1" [1]])],
      ∃ e ∈ [sampleVersion "v1" [1]], offer = (e.ref, e.event) := by
    intro offer hoffer
    exact ⟨_, List.mem_singleton_self _, List.mem_singleton.mp hoffer⟩
  obtain ⟨link, hrun, hstage, hvalue, s3, hs3, hpending, hattempts⟩ : ∃ link : Link,
      LinkRun plainRuntime (.start "west" (.fixed ⟨5⟩) (some ([sampleVersion "v1" [1]], [])) none)
        ([] ++ .takeLag :: lateLag) link ∧ link.stage = .s3Apply ∧
      link.control.lag.value = .fixed ⟨0⟩ ∧ ∃ s3 ∈ link.s3, s3.poller.scheduler.pending =
        [⟨("tile/0", "v1"), ⟨"tile/0", "v1", false⟩, ⟨10⟩⟩] ∧ s3.ledger.attempts = [] := by
    refine ⟨_, .cons (.takeLag rfl) (.cons (.postLag _) (.cons (.readPaused rfl)
      (.cons (.s3Discover rfl ?_) .refl))), rfl, rfl, _, rfl, rfl, rfl⟩
    intro s3 hs3
    cases hs3
    exact hlisted
  refine ⟨link, _, hrun, .s3Apply hstage, hvalue, ?_⟩
  obtain ⟨s3', hs3', attempts, heq, -, hreleases⟩ :=
    (posted_lag_respected hrun (by simp [lateLag]) (by decide) (.s3Apply hstage)).s3 s3 hs3
  refine ⟨s3', hs3', ?_⟩
  have hnone : attempts.map Prod.fst = [] := by
    apply List.eq_nil_iff_forall_not_mem.mpr
    intro d hd
    obtain ⟨hmem, helapsed⟩ := (hreleases.fixed ⟨5⟩ rfl d).mp hd
    rw [hpending, List.mem_singleton] at hmem
    subst hmem
    exact absurd helapsed (by decide)
  rw [heq, hattempts, List.map_eq_nil_iff.mp hnone]
  rfl

end lag

end DevReplicator
