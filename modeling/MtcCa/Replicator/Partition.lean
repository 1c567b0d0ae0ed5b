import MtcCa.Replicator.Link

/-! A paused link and its catching up (`crates/dev-replicator/src/link.rs`): what it holds and what
its target has while it is cut off and after. -/
namespace DevReplicator

open Cloud Cloud.Dynamo
open Transition (Trace)

section passes

variable {K E W : Type} {f : Discovered K E → W → Outcome × W} {r : W → W → Prop}

/-- A pass over changes that only add to the target keeps what each of them left there. -/
theorem applyAll_keeps (hrefl : ∀ w, r w w) (htrans : ∀ u v w, r u v → r v w → r u w)
    (hone : ∀ d w, r w (f d w).2) (due : List (Discovered K E)) (target : W) :
    r target (applyAll f due target).2 ∧
      ∀ x ∈ (applyAll f due target).1, ∃ w, (f x.1 w).1 = x.2 ∧
        r (f x.1 w).2 (applyAll f due target).2 := by
  induction due generalizing target with
  | nil => exact ⟨hrefl target, fun x hx => absurd hx List.not_mem_nil⟩
  | cons d due ih =>
    obtain ⟨hrest, hattempts⟩ := ih (f d target).2
    refine ⟨htrans _ _ _ (hone d target) hrest, ?_⟩
    intro x hx
    rcases List.mem_cons.mp hx with rfl | hx
    · exact ⟨target, rfl, hrest⟩
    · exact hattempts x hx

end passes

/-- What a copy carries over in any case; locks are carried over if they can be read. -/
def S3Object.carried (o : S3Object) : List UInt8 × Option String := (o.body, o.contentType)

/-- A bucket has a copy of an entry: an object with its content, or a delete marker. -/
def S3Entry.CopiedTo (e : S3Entry) (target : S3Bucket) : Prop :=
  ∃ c ∈ target, c.objectKey = e.objectKey ∧
    c.content.map S3Object.carried = e.content.map S3Object.carried

namespace S3Poller

variable {source target : S3Bucket} {freshId : String} {fate : S3Fate} {e : S3Entry}

theorem prefix_send (fate : Fate) (target : S3Bucket) (entry : S3Entry) :
    target <+: (send fate target entry).2 := by
  cases fate with
  | dropped => exact List.prefix_refl target
  | answerLost => exact List.prefix_append target [entry]
  | delivered => exact List.prefix_append target [entry]

/-- A change only adds to the target. -/
theorem prefix_applyOne (source : S3Bucket) (freshId : String) (fate : S3Fate)
    (event : S3VersionEvent) (target : S3Bucket) :
    target <+: (applyOne source freshId fate event target).2 := by
  unfold applyOne
  split
  · exact prefix_send ..
  · split
    · exact List.prefix_refl target
    · exact prefix_send ..

/-- A change of an entry of the source either cannot read it or sends a copy of it. -/
theorem applyOne_entry (hnodup : (source.map S3Entry.ref).Nodup) (he : e ∈ source) :
    (fate.getObject = false ∧
        applyOne source freshId fate e.event target = (.failed false, target)) ∨
      ∃ c : S3Entry, c.objectKey = e.objectKey ∧
        c.content.map S3Object.carried = e.content.map S3Object.carried ∧
        applyOne source freshId fate e.event target = send fate.write target c := by
  have hget : getObject source e.event = e.content := by
    rw [S3Link.getObject_eq_contentOf, S3Link.contentOf_of_mem hnodup he]
  unfold applyOne
  rw [hget]
  cases hcontent : e.content with
  | none =>
    right
    refine ⟨⟨e.objectKey, freshId, none⟩, rfl, rfl, ?_⟩
    simp [S3Entry.event, hcontent]
  | some get =>
    have hversion : e.event.isDeleteMarker = false := by simp [S3Entry.event, hcontent]
    rw [if_neg (by rw [hversion]; exact Bool.false_ne_true)]
    cases hread : fate.getObject with
    | false => exact Or.inl ⟨rfl, rfl⟩
    | true =>
      right
      refine ⟨⟨e.objectKey, freshId, some ⟨get.body, get.contentType, _, _, _⟩⟩, ?_, ?_, rfl⟩
      · rfl
      · rfl

/-- A change that is said to be applied has left a copy of its entry. -/
theorem copiedTo_of_applied (hnodup : (source.map S3Entry.ref).Nodup) (he : e ∈ source)
    (happlied : (applyOne source freshId fate e.event target).1 = .applied) :
    e.CopiedTo (applyOne source freshId fate e.event target).2 := by
  rcases applyOne_entry hnodup he with ⟨-, hfailed⟩ | ⟨c, hkey, hcontent, hsend⟩
  · rw [hfailed] at happlied
    cases happlied
  · rw [hsend] at happlied ⊢
    cases hwrite : fate.write with
    | delivered => exact ⟨c, List.mem_append_right _ (List.mem_singleton_self c), hkey, hcontent⟩
    | _ =>
      rw [hwrite] at happlied
      cases happlied

/-- A change whose requests are answered is applied. -/
theorem applied_of_answered (hnodup : (source.map S3Entry.ref).Nodup) (he : e ∈ source)
    (hread : fate.getObject = true) (hwrite : fate.write = .delivered) :
    (applyOne source freshId fate e.event target).1 = .applied := by
  rcases applyOne_entry hnodup he with ⟨hnot, -⟩ | ⟨c, -, -, hsend⟩
  · rw [hread] at hnot
    cases hnot
  · rw [hsend, hwrite]
    rfl

end S3Poller

namespace S3Link

variable {s3 s3' s3'' : S3Link} {action : S3Action}

/-- What an S3 link has only grows. -/
structure Grows (s3 s3' : S3Link) : Prop where
  queued : s3.ledger.queued <+: s3'.ledger.queued
  attempts : s3.ledger.attempts <+: s3'.ledger.attempts
  source : s3.source <+: s3'.source
  target : s3.target <+: s3'.target

theorem Grows.refl (s3 : S3Link) : s3.Grows s3 :=
  ⟨List.prefix_rfl, List.prefix_rfl, List.prefix_rfl, List.prefix_rfl⟩

theorem Grows.trans (h : s3.Grows s3') (h' : s3'.Grows s3'') : s3.Grows s3'' :=
  ⟨h.queued.trans h'.queued, h.attempts.trans h'.attempts, h.source.trans h'.source,
    h.target.trans h'.target⟩

/-- An apply pass: what it took off the queue, and what each change left on the target. -/
theorem applyDue_keeps (s3 : S3Link) (now : SystemTime) (freshId : S3Key → String)
    (fate : S3Key → S3Fate) :
    s3.target <+: (s3.step (.applyDue now freshId fate)).target ∧
      ∃ attempts, (s3.step (.applyDue now freshId fate)).ledger.attempts =
          s3.ledger.attempts ++ attempts ∧
        attempts.map Prod.fst = (s3.poller.scheduler.drainDue now).1 ∧
        ∀ x ∈ attempts, ∃ target,
          (S3Poller.applyOne s3.source (freshId x.1.key) (fate x.1.key) x.1.event target).1 = x.2 ∧
          (S3Poller.applyOne s3.source (freshId x.1.key) (fate x.1.key) x.1.event target).2 <+:
            (s3.step (.applyDue now freshId fate)).target := by
  obtain ⟨htarget, hattempts⟩ := applyAll_keeps (r := (· <+: ·))
    (f := fun d w => S3Poller.applyOne s3.source (freshId d.key) (fate d.key) d.event w)
    (fun _ => List.prefix_rfl) (fun _ _ _ => List.IsPrefix.trans)
    (fun _ _ => S3Poller.prefix_applyOne ..) (s3.poller.scheduler.drainDue now).1 s3.target
  exact ⟨htarget, _, rfl, map_fst_applyAll, hattempts⟩

theorem grows_step : s3.Grows (s3.step action) := by
  cases action with
  | change entry =>
    exact ⟨List.prefix_rfl, List.prefix_rfl, List.prefix_append _ _, List.prefix_rfl⟩
  | discover now pages =>
    exact ⟨List.prefix_append _ _, List.prefix_rfl, List.prefix_rfl, List.prefix_rfl⟩
  | applyDue now freshId fate =>
    obtain ⟨htarget, -⟩ := s3.applyDue_keeps now freshId fate
    exact ⟨List.prefix_rfl, List.prefix_append _ _, List.prefix_rfl, htarget⟩
  | setLagPolicy policy =>
    exact ⟨List.prefix_rfl, List.prefix_rfl, List.prefix_rfl, List.prefix_rfl⟩

theorem grows_run (actions : List S3Action) : s3.Grows (s3.run actions) := by
  induction actions generalizing s3 with
  | nil => exact Grows.refl s3
  | cons action actions ih => exact grows_step.trans ih

/-- What is queued stands for entries of the source, and what was applied is on the target. -/
structure Tracks (s3 : S3Link) : Prop where
  matchesLedger : s3.Matches
  nodup : (s3.source.map S3Entry.ref).Nodup
  event : ∀ d ∈ s3.ledger.queued, ∃ e ∈ s3.source, e.ref = d.key ∧ d.event = e.event
  copied : ∀ x ∈ s3.ledger.attempts, x.2 = .applied →
    ∀ e ∈ s3.source, e.ref = x.1.key → e.CopiedTo s3.target

theorem tracks_new (initialLag : LagPolicy) {source : S3Bucket} (target : S3Bucket)
    (hnodup : (source.map S3Entry.ref).Nodup) : (new initialLag source target).Tracks :=
  ⟨matches_new initialLag source target, hnodup, fun _ hd => absurd hd List.not_mem_nil,
    fun _ hx => absurd hx List.not_mem_nil⟩

/-- What was attempted was queued. -/
theorem Tracks.attempted (h : s3.Tracks) {x : Discovered S3Key S3VersionEvent × Outcome}
    (hx : x ∈ s3.ledger.attempts) : x.1 ∈ s3.ledger.queued := by
  have hqueued := h.matchesLedger.queued
  rw [hqueued]
  exact List.mem_append_left _ (List.mem_map_of_mem hx)

theorem Tracks.due (h : s3.Tracks) (now : SystemTime) {d : Discovered S3Key S3VersionEvent}
    (hd : d ∈ (s3.poller.scheduler.drainDue now).1) : d ∈ s3.ledger.queued := by
  obtain ⟨hpending, -⟩ := LagScheduler.drainDue_spec
    (show s3.poller.scheduler.drainDue now = (_, _) from rfl)
  have hqueued := h.matchesLedger.queued
  rw [hqueued, hpending]
  exact List.mem_append_right _ (List.mem_append_left _ hd)

theorem Tracks.change (h : s3.Tracks) {entry : S3Entry}
    (hfresh : entry.ref ∉ s3.source.map S3Entry.ref) : (s3.step (.change entry)).Tracks := by
  have hmap : (s3.source ++ [entry]).map S3Entry.ref =
      s3.source.map S3Entry.ref ++ [entry.ref] := List.map_append
  refine ⟨matches_step h.matchesLedger, ?_, ?_, ?_⟩
  · refine hmap ▸ List.nodup_append'.mpr ⟨h.nodup, List.nodup_singleton _, ?_⟩
    exact List.disjoint_singleton.mpr hfresh
  · intro d hd
    obtain ⟨e, he, hevent⟩ := h.event d hd
    exact ⟨e, List.mem_append_left _ he, hevent⟩
  · intro x hx happlied e he hkey
    rcases List.mem_append.mp he with he | he
    · exact h.copied x hx happlied e he hkey
    · obtain ⟨e', he', hkey', -⟩ := h.event x.1 (h.attempted hx)
      rw [List.mem_singleton.mp he] at hkey
      refine absurd (List.mem_map.mpr ⟨e', he', ?_⟩) hfresh
      rw [hkey', hkey]

theorem Tracks.discover (h : s3.Tracks) (now : SystemTime)
    {pages : List (Except ReplicatorError ListPage)}
    (hlisted : ∀ offer ∈ listedOffers pages, ∃ e ∈ s3.source, offer = (e.ref, e.event)) :
    (s3.step (.discover now pages)).Tracks := by
  refine ⟨matches_step h.matchesLedger, h.nodup, ?_, h.copied⟩
  intro d hd
  obtain ⟨new, hpending, -, -, hsub, -⟩ :=
    s3.poller.scheduler.offerAll_spec now (listedOffers pages)
  have hqueued : (s3.step (.discover now pages)).ledger.queued = s3.ledger.queued ++ new := by
    rw [listedOffers, ← S3Poller.scheduler_discover] at hpending
    refine congrArg (s3.ledger.queued ++ ·) ?_
    exact (congrArg (List.drop _) hpending).trans List.drop_left
  rw [hqueued] at hd
  rcases List.mem_append.mp hd with hd | hd
  · exact h.event d hd
  · obtain ⟨offer, hoffer, rfl⟩ := List.mem_map.mp (hsub.subset hd)
    obtain ⟨e, he, rfl⟩ := hlisted offer hoffer
    exact ⟨e, he, rfl, rfl⟩

theorem Tracks.applyDue (h : s3.Tracks) (now : SystemTime) (freshId : S3Key → String)
    (fate : S3Key → S3Fate) : (s3.step (.applyDue now freshId fate)).Tracks := by
  refine ⟨matches_step h.matchesLedger, h.nodup, h.event, ?_⟩
  obtain ⟨htarget, attempts, hattempts, hdue, hleft⟩ := s3.applyDue_keeps now freshId fate
  intro x hx happlied e he hkey
  rw [hattempts] at hx
  rcases List.mem_append.mp hx with hx | hx
  · obtain ⟨c, hc, hcopy⟩ := h.copied x hx happlied e he hkey
    exact ⟨c, htarget.subset hc, hcopy⟩
  · obtain ⟨target, houtcome, hkept⟩ := hleft x hx
    have hmem : x.1 ∈ s3.ledger.queued := h.due now (hdue ▸ List.mem_map_of_mem hx)
    obtain ⟨e', he', hkey', hevent⟩ := h.event x.1 hmem
    obtain rfl := List.inj_on_of_nodup_map h.nodup he' he (hkey'.trans hkey.symm)
    rw [hevent] at houtcome hkept
    obtain ⟨c, hc, hcopy⟩ :=
      S3Poller.copiedTo_of_applied h.nodup he (houtcome.trans happlied)
    exact ⟨c, hkept.subset hc, hcopy⟩

/-- No attempt at a change failed. -/
def Delivered (s3 : S3Link) (ref : S3Key) : Prop :=
  ∀ x ∈ s3.ledger.attempts, x.1.key = ref → x.2 = .applied

theorem Delivered.applyDue {ref : S3Key} (h : s3.Delivered ref) (htracks : s3.Tracks)
    (now : SystemTime) (freshId : S3Key → String) {fate : S3Key → S3Fate}
    (hread : (fate ref).getObject = true) (hwrite : (fate ref).write = .delivered) :
    (s3.step (.applyDue now freshId fate)).Delivered ref := by
  obtain ⟨-, attempts, hattempts, hdue, hleft⟩ := s3.applyDue_keeps now freshId fate
  intro x hx hkey
  rw [hattempts] at hx
  rcases List.mem_append.mp hx with hx | hx
  · exact h x hx hkey
  · obtain ⟨target, houtcome, -⟩ := hleft x hx
    have hmem : x.1 ∈ s3.ledger.queued := htracks.due now (hdue ▸ List.mem_map_of_mem hx)
    obtain ⟨e, he, -, hevent⟩ := htracks.event x.1 hmem
    rw [← houtcome, hevent]
    rw [← hkey] at hread hwrite
    exact S3Poller.applied_of_answered htracks.nodup he hread hwrite

/-- A change that was queued at least the lag ago is attempted by an apply pass. -/
theorem attempted_of_due {lag : Duration} {now : SystemTime} {times : List SystemTime}
    {d : Discovered S3Key S3VersionEvent} (hmatches : s3.Matches)
    (hordered : s3.ledger.Ordered times) (freshId : S3Key → String) (fate : S3Key → S3Fate)
    (hpolicy : s3.poller.scheduler.policy = .fixed lag) (hd : d ∈ s3.ledger.queued)
    (hlag : d.discoveredAt.nanos + lag.nanos ≤ now.nanos) :
    ∃ x ∈ (s3.step (.applyDue now freshId fate)).ledger.attempts, x.1 = d := by
  obtain ⟨-, attempts, hattempts, hdue, -⟩ := s3.applyDue_keeps now freshId fate
  rw [hattempts]
  have hqueued := hmatches.queued
  rw [hqueued] at hd
  rcases List.mem_append.mp hd with hd | hd
  · obtain ⟨x, hx, rfl⟩ := List.mem_map.mp hd
    exact ⟨x, List.mem_append_left _ hx, rfl⟩
  · have hreleases : LagScheduler.ReleasesDue s3.poller.scheduler.policy now
        s3.poller.scheduler.pending (s3.poller.scheduler.drainDue now).1 :=
      LagScheduler.releasesDue_drainDue (hmatches.pending_sorted hordered)
    have helapsed : lag.nanos ≤ durationSince now d.discoveredAt := by
      unfold durationSince
      omega
    have hmem := (hreleases.fixed lag hpolicy d).mpr ⟨hd, helapsed⟩
    rw [← hdue] at hmem
    obtain ⟨x, hx, rfl⟩ := List.mem_map.mp hmem
    exact ⟨x, List.mem_append_right _ hx, rfl⟩

end S3Link

/-- Whenever a change is tried its requests are answered: the read of its content and the
write. -/
def Answered (ref : S3Key) (events : List LinkEvent) : Prop :=
  ∀ now freshId fate, .s3Apply now freshId fate ∈ events →
    (fate ref).getObject = true ∧ (fate ref).write = .delivered

/-- A policy that holds back no change longer than a lag. -/
def LagPolicy.Within (lag : Duration) : LagPolicy → Prop
  | .fixed l => l.nanos ≤ lag.nanos
  | .stalled => False

/-- The parts of the cycle in progress that still touch a queue or a target. -/
def Stage.rest : Stage → List Stage
  | s3Discover => [s3Discover, s3Apply, ddbDiscover, ddbApply]
  | s3Apply => [s3Apply, ddbDiscover, ddbApply]
  | ddbDiscover => [ddbDiscover, ddbApply]
  | ddbApply => [ddbApply]
  | _ => []

/-- The part of a cycle that an event is, if it touches a queue or a target. -/
def LinkEvent.part? : LinkEvent → Option Stage
  | s3Discover _ _ => some .s3Discover
  | s3Apply _ _ _ => some .s3Apply
  | ddbDiscover _ _ => some .ddbDiscover
  | ddbApply _ _ => some .ddbApply
  | _ => none

/-- What an event posts to the pause flag. -/
def LinkEvent.pause? : LinkEvent → Option Bool
  | postPause => some true
  | postResume => some false
  | _ => none

/-- The link is paused, and no cycle that began before goes on. -/
structure Link.Quiet (link : Link) : Prop where
  paused : link.control.paused = true
  rest : link.stage.rest = []

/-- Nothing was discovered or attempted, and both targets are as they were. -/
structure Link.Frozen (link link' : Link) : Prop where
  s3 : ∀ s3 ∈ link.s3, ∃ s3' ∈ link'.s3, s3'.target = s3.target ∧ s3'.ledger = s3.ledger ∧
    s3'.poller.scheduler.pending = s3.poller.scheduler.pending
  ddb : ∀ ddb ∈ link.ddb, ∃ ddb' ∈ link'.ddb, ddb'.target = ddb.target ∧
    ddb'.ledger = ddb.ledger ∧ ddb'.poller.scheduler.pending = ddb.poller.scheduler.pending

section steps

variable {R : Runtime} {link link' link'' : Link} {a : LinkEvent} {events : List LinkEvent}

theorem mem_s3_step (h : LinkStep R link a link') {s3 : S3Link} (hs3 : s3 ∈ link.s3) :
    s3.run (a.s3Actions link.control) ∈ link'.s3 := by
  rw [s3_step h]
  exact Option.mem_map_of_mem _ hs3

theorem mem_ddb_step (h : LinkStep R link a link') {ddb : DdbLink} (hddb : ddb ∈ link.ddb) :
    ddb.run R (a.ddbActions link.control) ∈ link'.ddb := by
  rw [ddb_step h]
  exact Option.mem_map_of_mem _ hddb

theorem Link.Frozen.refl (link : Link) : link.Frozen link :=
  ⟨fun s3 hs3 => ⟨s3, hs3, rfl, rfl, rfl⟩, fun ddb hddb => ⟨ddb, hddb, rfl, rfl, rfl⟩⟩

theorem Link.Frozen.trans (h : link.Frozen link') (h' : link'.Frozen link'') :
    link.Frozen link'' := by
  refine ⟨?_, ?_⟩
  · intro s3 hs3
    obtain ⟨s3', hs3', htarget, hledger, hpending⟩ := h.s3 s3 hs3
    obtain ⟨s3'', hs3'', htarget', hledger', hpending'⟩ := h'.s3 s3' hs3'
    exact ⟨s3'', hs3'', htarget'.trans htarget, hledger'.trans hledger, hpending'.trans hpending⟩
  · intro ddb hddb
    obtain ⟨ddb', hddb', htarget, hledger, hpending⟩ := h.ddb ddb hddb
    obtain ⟨ddb'', hddb'', htarget', hledger', hpending'⟩ := h'.ddb ddb' hddb'
    exact ⟨ddb'', hddb'', htarget'.trans htarget, hledger'.trans hledger, hpending'.trans hpending⟩

/-- Only the control endpoint changes the pause flag. -/
theorem paused_eq (h : LinkStep R link a link') :
    link'.control.paused = a.pause?.getD link.control.paused := by
  cases h with
  | postLag view =>
    unfold Link.postLag
    split
    · rfl
    · rfl
  | takeLag hstage =>
    show (link.takeLag R).control.paused = link.control.paused
    unfold Link.takeLag
    split
    · rfl
    · rfl
  | _ => rfl

theorem paused_step (h : LinkStep R link a link') (ha : a ≠ .postResume)
    (hpaused : link.control.paused = true) : link'.control.paused = true := by
  have hflag := paused_eq h
  cases a with
  | postResume => exact absurd rfl ha
  | postPause => exact hflag
  | _ => exact hflag.trans hpaused

/-- A paused link goes on with its cycle, part by part, and begins no other. -/
theorem rest_step (h : LinkStep R link a link') (hpaused : link.control.paused = true) :
    a.part?.toList ++ link'.stage.rest = link.stage.rest := by
  cases h with
  | postLag view =>
    unfold Link.postLag
    split
    · rfl
    · rfl
  | readPaused hstage =>
    rw [if_pos hpaused, hstage]
    rfl
  | takeLag hstage => rw [hstage]; rfl
  | s3Discover hstage hlisted => rw [hstage]; rfl
  | s3Apply hstage => rw [hstage]; rfl
  | ddbDiscover hstage => rw [hstage]; rfl
  | ddbApply hstage => rw [hstage]; rfl
  | publish hstage => rw [hstage]; rfl
  | stop hstage => rw [hstage]; rfl
  | _ => rfl

/-- A paused link stays quiet until it is resumed. -/
theorem quiet_step (h : LinkStep R link a link') (ha : a ≠ .postResume) (hquiet : link.Quiet) :
    link'.Quiet := by
  refine ⟨paused_step h ha hquiet.paused, ?_⟩
  have hrest := rest_step h hquiet.paused
  rw [hquiet.rest] at hrest
  exact (List.append_eq_nil_iff.mp hrest).2

theorem frozen_step (h : LinkStep R link a link') (hquiet : link.Quiet) : link.Frozen link' := by
  have hpart : a.part?.toList = [] := by
    have hrest := rest_step h hquiet.paused
    rw [hquiet.rest] at hrest
    exact (List.append_eq_nil_iff.mp hrest).1
  refine ⟨?_, ?_⟩
  · intro s3 hs3
    refine ⟨_, mem_s3_step h hs3, ?_⟩
    cases a with
    | takeLag =>
      simp only [LinkEvent.s3Actions]
      split
      · exact ⟨rfl, rfl, rfl⟩
      · exact ⟨rfl, rfl, rfl⟩
    | s3Discover now pages => cases hpart
    | s3Apply now freshId fate => cases hpart
    | _ => exact ⟨rfl, rfl, rfl⟩
  · intro ddb hddb
    refine ⟨_, mem_ddb_step h hddb, ?_⟩
    cases a with
    | takeLag =>
      simp only [LinkEvent.ddbActions]
      split
      · exact ⟨rfl, rfl, rfl⟩
      · exact ⟨rfl, rfl, rfl⟩
    | ddbDiscover now pages => cases hpart
    | ddbApply now fate => cases hpart
    | _ => exact ⟨rfl, rfl, rfl⟩

theorem frozen_run (h : LinkRun R link events link') (hquiet : link.Quiet)
    (hdown : .postResume ∉ events) : link.Frozen link' := by
  have hall := h.history (P := fun as t => .postResume ∉ as → t.Quiet ∧ link.Frozen t) ?_
    (fun _ => ⟨hquiet, Link.Frozen.refl link⟩)
  · exact (hall hdown).2
  · intro as a s t hstep hs hnone
    rw [List.mem_append, not_or, List.mem_singleton] at hnone
    obtain ⟨hquiet', hfrozen⟩ := hs hnone.1
    exact ⟨quiet_step hstep (Ne.symm hnone.2) hquiet', hfrozen.trans (frozen_step hstep hquiet')⟩

/-- What a paused link still does is what was left of its cycle, each part once and in order; once
nothing is left, its queues and targets stay as they are. -/
theorem pause_ends_with_cycle (hpaused : link.control.paused = true)
    (h : LinkRun R link events link') (hdown : .postResume ∉ events) :
    events.filterMap LinkEvent.part? ++ link'.stage.rest = link.stage.rest ∧
      (link'.stage.rest = [] → ∀ later last, LinkRun R link' later last → .postResume ∉ later →
        link'.Frozen last) := by
  have hall := h.history (P := fun as t => .postResume ∉ as → t.control.paused = true ∧
    as.filterMap LinkEvent.part? ++ t.stage.rest = link.stage.rest) ?_ (fun _ => ⟨hpaused, rfl⟩)
  · obtain ⟨hpaused', hrest⟩ := hall hdown
    exact ⟨hrest, fun hnone later last hlater hlast => frozen_run hlater ⟨hpaused', hnone⟩ hlast⟩
  · intro as a s t hstep hs hnone
    rw [List.mem_append, not_or, List.mem_singleton] at hnone
    obtain ⟨hpaused', hrest⟩ := hs hnone.1
    refine ⟨paused_step hstep (Ne.symm hnone.2) hpaused', ?_⟩
    have hpart : [a].filterMap LinkEvent.part? = a.part?.toList := by cases a <;> rfl
    rw [List.filterMap_append, hpart, List.append_assoc, rest_step hstep hpaused', hrest]

def heldVersion : S3Entry := sampleVersion "v1" [1]

def heldPages : List (Except ReplicatorError ListPage) := [.ok (pageOf [heldVersion])]

theorem listedOffers_heldPages : ∀ offer ∈ listedOffers heldPages,
    ∃ e ∈ [heldVersion], offer = (e.ref, e.event) := by
  intro offer hoffer
  exact ⟨_, List.mem_singleton_self _, List.mem_singleton.mp hoffer⟩

/-- A cycle in which the pause comes just after the check of the flag, and the next one. -/
def overtaken : List LinkEvent :=
  [.s3Discover ⟨10⟩ heldPages,
    .s3Apply ⟨11⟩ (fun ref => ref.2) (fun _ => ⟨true, true, true, .delivered⟩),
    .ddbDiscover ⟨12⟩ [.ok [sampleScanned ⟨"log#a", "lease"⟩ "1"]],
    .ddbApply ⟨13⟩ (fun _ => .delivered), .publish ⟨14⟩ ⟨14⟩, .takeLag, .readPaused,
    .publish ⟨15⟩ ⟨15⟩]

/-- Both buckets and both tables have one entry after the cycle, and keep to it. -/
theorem pause_ends_with_cycle_overtaken : ∃ s t : Link,
    LinkRun plainRuntime (.start "west" .immediate (some ([heldVersion], [])) (some .empty))
      [.takeLag, .readPaused, .postPause] s ∧ LinkRun plainRuntime s overtaken t ∧
    overtaken.filterMap LinkEvent.part? =
      [Stage.s3Discover, .s3Apply, .ddbDiscover, .ddbApply] ∧
    (∃ s3 ∈ t.s3, heldVersion.CopiedTo s3.target) ∧
    (∃ ddb ∈ t.ddb, ddb.target.keys = {⟨"log#a", "lease"⟩}) ∧
    ∀ later last, LinkRun plainRuntime t later last → .postResume ∉ later → t.Frozen last := by
  obtain ⟨s, hrun, hpaused, hstage, t, hcut, hwaiting, hs3, hddb⟩ : ∃ s : Link,
      LinkRun plainRuntime (.start "west" .immediate (some ([heldVersion], [])) (some .empty))
        [.takeLag, .readPaused, .postPause] s ∧ s.control.paused = true ∧
      s.stage = .s3Discover ∧ ∃ t : Link, LinkRun plainRuntime s overtaken t ∧
        t.stage = .waiting ∧ (∃ s3 ∈ t.s3, heldVersion.CopiedTo s3.target) ∧
        ∃ ddb ∈ t.ddb, ddb.target.keys = {⟨"log#a", "lease"⟩} := by
    refine ⟨_, .cons (.takeLag rfl) (.cons (.readPaused rfl) (.cons .postPause .refl)), rfl, rfl,
      _, .cons (.s3Discover rfl ?_) (.cons (.s3Apply rfl) (.cons (.ddbDiscover rfl)
        (.cons (.ddbApply rfl) (.cons (.publish rfl) (.cons (.takeLag rfl) (.cons (.readPaused rfl)
        (.cons (.publish rfl) .refl))))))), rfl, ⟨_, rfl, ?_⟩, ⟨_, rfl, by decide +kernel⟩⟩
    · intro s3 hs3
      cases hs3
      exact listedOffers_heldPages
    · exact ⟨heldVersion, by decide +kernel, rfl, rfl⟩
  obtain ⟨hparts, hfrozen⟩ := pause_ends_with_cycle hpaused hcut (by simp [overtaken])
  have hrest : t.stage.rest = [] := by
    rw [hwaiting]
    rfl
  rw [hrest, List.append_nil, hstage] at hparts
  exact ⟨s, t, hrun, hcut, hparts, hs3, hddb, hfrozen hrest⟩

theorem grows_run (h : LinkRun R link events link') {s3 : S3Link} (hs3 : s3 ∈ link.s3) :
    ∃ s3' ∈ link'.s3, s3.Grows s3' := by
  refine h.invariant (P := fun t => ∃ s3' ∈ t.s3, s3.Grows s3') ?_ ⟨s3, hs3, S3Link.Grows.refl s3⟩
  rintro s a t hstep ⟨s3', hs3', hgrows⟩
  exact ⟨_, mem_s3_step hstep hs3', hgrows.trans (S3Link.grows_run _)⟩

/-- One step of a link keeps the S3 side in order, and no attempt at a change fails that is
answered. -/
theorem tracks_step {ref : S3Key} (h : LinkStep R link a link')
    (hlink : ∀ s3 ∈ link.s3, s3.Tracks ∧ s3.Delivered ref) (hanswered : Answered ref [a]) :
    ∀ s3 ∈ link'.s3, s3.Tracks ∧ s3.Delivered ref := by
  intro s3' hs3'
  rw [s3_step h] at hs3'
  obtain ⟨s3, hs3, rfl⟩ := Option.map_eq_some_iff.mp hs3'
  obtain ⟨htracks, hdelivered⟩ := hlink s3 hs3
  cases h with
  | change hfresh => exact ⟨htracks.change (hfresh s3 hs3), hdelivered⟩
  | s3Discover hstage hlisted => exact ⟨htracks.discover _ (hlisted s3 hs3), hdelivered⟩
  | s3Apply hstage =>
    obtain ⟨hread, hwrite⟩ := hanswered _ _ _ (List.mem_singleton_self _)
    exact ⟨htracks.applyDue .., hdelivered.applyDue htracks _ _ hread hwrite⟩
  | takeLag hstage =>
    have hset : (s3.step (.setLagPolicy link.control.lag.value)).Tracks :=
      ⟨S3Link.matches_step htracks.matchesLedger, htracks.nodup, htracks.event, htracks.copied⟩
    simp only [LinkEvent.s3Actions]
    split
    · exact ⟨hset, hdelivered⟩
    · exact ⟨htracks, hdelivered⟩
  | _ => exact ⟨htracks, hdelivered⟩

/-- The pollers hold back no change longer than a lag, and neither does the lag sent last. -/
def Link.Prompt (link : Link) (lag : Duration) : Prop :=
  (∃ policy, link.Under policy ∧ policy.Within lag) ∧ link.control.lag.value.Within lag

theorem within_step {lag : Duration} (h : LinkStep R link a link')
    (hposts : ∀ view, a = .postLag view → view.policy.Within lag)
    (hlink : link.control.lag.value.Within lag) : link'.control.lag.value.Within lag := by
  by_cases ha : a = .takeLag
  · subst ha
    cases h with
    | takeLag hstage =>
      have hvalue : (link.takeLag R).control.lag.value.Within lag := by rwa [value_takeLag]
      exact hvalue
  · rcases lag_step h ha with hlag | ⟨view, hpost, hlag⟩
    · rwa [hlag]
    · rw [hlag]
      exact hposts view hpost

theorem within_run {lag : Duration} (h : LinkRun R link events link')
    (hposts : ∀ view, .postLag view ∈ events → view.policy.Within lag)
    (hlink : link.control.lag.value.Within lag) : link'.control.lag.value.Within lag := by
  refine h.history (P := fun as t => (∀ view, .postLag view ∈ as → view.policy.Within lag) →
    t.control.lag.value.Within lag) ?_ (fun _ => hlink) hposts
  intro as a s t hstep hs hposts
  refine within_step hstep ?_ (hs fun view hview => hposts view (List.mem_append_left _ hview))
  rintro view rfl
  exact hposts view (List.mem_append_right _ (List.mem_singleton_self _))

theorem prompt_takeLag {lag : Duration} (h : LinkStep R link .takeLag link')
    (hsynced : link.Synced) (hlink : link.control.lag.value.Within lag) : link'.Prompt lag := by
  refine ⟨⟨link.control.lag.value, ?_, hlink⟩, within_step h (by simp) hlink⟩
  cases h with
  | takeLag hstage =>
    obtain ⟨hunder, -⟩ := under_takeLag (R := R) hsynced
    exact ⟨hunder.s3, hunder.ddb⟩

/-- Once prompt, a link stays so under lags that are short enough. -/
theorem prompt_run {lag : Duration} (h : LinkRun R link events link') (hsynced : link.Synced)
    (hposts : ∀ view, .postLag view ∈ events → view.policy.Within lag) (hlink : link.Prompt lag) :
    link'.Prompt lag := by
  have hall := h.history (P := fun as t => (∀ view, .postLag view ∈ as → view.policy.Within lag) →
    t.Synced ∧ t.Prompt lag) ?_ (fun _ => ⟨hsynced, hlink⟩)
  · exact (hall hposts).2
  · intro as a s t hstep hs hposts
    obtain ⟨hsynced', ⟨policy, hunder, hwithin⟩, hvalue⟩ :=
      hs fun view hview => hposts view (List.mem_append_left _ hview)
    refine ⟨synced_step hstep hsynced', ?_⟩
    by_cases ha : a = .takeLag
    · subst ha
      exact prompt_takeLag hstep hsynced' hvalue
    · refine ⟨⟨policy, under_step hstep ha hunder, hwithin⟩, within_step hstep ?_ hvalue⟩
      rintro view rfl
      exact hposts view (List.mem_append_right _ (List.mem_singleton_self _))

/-- What a pass lists is queued after it. -/
theorem queued_of_listed {now : SystemTime} {pages : List (Except ReplicatorError ListPage)}
    {e : S3Entry} (h : LinkStep R link (.s3Discover now pages) link')
    (he : (e.ref, e.event) ∈ listedOffers pages) {s3 : S3Link} (hs3 : s3 ∈ link'.s3)
    (hmatches : s3.Matches) : ∃ d ∈ s3.ledger.queued, d.key = e.ref := by
  rw [s3_step h] at hs3
  obtain ⟨s3, -, rfl⟩ := Option.map_eq_some_iff.mp hs3
  obtain ⟨_, -, -, -, -, hseen⟩ := s3.poller.scheduler.offerAll_spec now (listedOffers pages)
  have hkey := (hseen e.ref).mpr (Or.inr (List.mem_map.mpr ⟨_, he, rfl⟩))
  rw [listedOffers, ← S3Poller.scheduler_discover] at hkey
  exact List.mem_map.mp (hmatches.mem_seen.mp hkey)

end steps

/-- A cycle that begins in these events lists an entry, and a pass at least the lag later applies
what is due. -/
def CatchesUp (lag : Duration) (e : S3Entry) (events : List LinkEvent) : Prop :=
  ∃ (idle cycle between rest : List LinkEvent) (t₁ t₂ : SystemTime)
    (pages : List (Except ReplicatorError ListPage)) (freshId : S3Key → String)
    (fate : S3Key → S3Fate),
    events = idle ++ ([.takeLag] ++ (cycle ++ ([.s3Discover t₁ pages] ++
      (between ++ ([.s3Apply t₂ freshId fate] ++ rest))))) ∧
    (e.ref, e.event) ∈ listedOffers pages ∧ t₁.nanos + lag.nanos ≤ t₂.nanos

section healing

variable {R : Runtime} {name : String} {initialLag : LagPolicy}
  {buckets : Option (S3Bucket × S3Bucket)} {table : Option Table} {s t u : Link}
  {before during after events : List LinkEvent} {ref : S3Key} {lag : Duration} {e : S3Entry}

theorem tracks_run (h : LinkRun R (.start name initialLag buckets table) events t)
    (hnodup : ∀ b ∈ buckets, (b.1.map S3Entry.ref).Nodup) (hanswered : Answered ref events) :
    ∀ s3 ∈ t.s3, s3.Tracks ∧ s3.Delivered ref := by
  refine h.history (P := fun as t => Answered ref as → ∀ s3 ∈ t.s3, s3.Tracks ∧ s3.Delivered ref)
    ?_ ?_ hanswered
  · intro as a s t hstep hs hanswered
    refine tracks_step hstep (hs fun now freshId fate hmem => ?_) fun now freshId fate hmem => ?_
    · exact hanswered now freshId fate (List.mem_append_left _ hmem)
    · exact hanswered now freshId fate (List.mem_append_right _ hmem)
  · intro _ s3 hs3
    obtain ⟨b, hb, rfl⟩ := Option.map_eq_some_iff.mp hs3
    exact ⟨S3Link.tracks_new initialLag b.2 (hnodup b hb), fun _ hx => absurd hx List.not_mem_nil⟩

theorem ClockForward.left (h : ClockForward (before ++ after)) : ClockForward before := by
  rw [ClockForward, List.flatMap_append, List.pairwise_append] at h
  exact h.1

/-- After a discovery nothing that was queued is newer. -/
theorem discoveredAt_le {now : SystemTime} {pages : List (Except ReplicatorError ListPage)}
    (hrun : LinkRun R (.start name initialLag buckets table)
      (events ++ [.s3Discover now pages]) t)
    (hclock : ClockForward (events ++ [.s3Discover now pages])) {s3 : S3Link} (hs3 : s3 ∈ t.s3)
    {d : Discovered S3Key S3VersionEvent} (hd : d ∈ s3.ledger.queued) : d.discoveredAt ≤ now := by
  obtain ⟨-, hordered⟩ := (booked_run hrun hclock).s3 s3 hs3
  have hpast := hordered.past d hd
  rw [List.flatMap_append, List.flatMap_singleton] at hpast
  rcases List.mem_append.mp hpast with hpast | hpast
  · exact hclock.concat.2 _ hpast now (List.mem_singleton_self now)
  · exact (List.mem_singleton.mp hpast).le

/-- Since a cycle began under a lag that is short enough, a link is prompt. -/
theorem prompt_of_cycle (hrun : LinkRun R (.start name initialLag buckets table) before s)
    (htake : LinkStep R s .takeLag t) (hafter : LinkRun R t after u)
    (hposts : ∀ view, .postLag view ∈ after → view.policy.Within lag)
    (hvalue : s.control.lag.value.Within lag) : u.Prompt lag := by
  have hsynced : s.Synced := synced_run hrun synced_start
  exact prompt_run hafter (synced_step htake hsynced) hposts (prompt_takeLag htake hsynced hvalue)

/-- A prompt link attempts whatever was queued at least the lag ago. -/
theorem attempted_of_prompt {now : SystemTime} {times : List SystemTime} {s3 : S3Link}
    {d : Discovered S3Key S3VersionEvent} (hbooked : s.Booked times) (hprompt : s.Prompt lag)
    (hs3 : s3 ∈ s.s3) (hd : d ∈ s3.ledger.queued) (freshId : S3Key → String)
    (fate : S3Key → S3Fate) (hlag : d.discoveredAt.nanos + lag.nanos ≤ now.nanos) :
    ∃ x ∈ (s3.step (.applyDue now freshId fate)).ledger.attempts, x.1 = d := by
  obtain ⟨hmatches, hordered⟩ := hbooked.s3 s3 hs3
  obtain ⟨⟨policy, hunder, hwithin⟩, -⟩ := hprompt
  have hpolicy := hunder.s3 s3 hs3
  cases policy with
  | stalled => exact hwithin.elim
  | fixed l =>
    have hle : l.nanos ≤ lag.nanos := hwithin
    exact S3Link.attempted_of_due hmatches hordered freshId fate hpolicy hd (by omega)

/-- A link that catches up has attempted the change of the entry. -/
theorem attempted_of_catchesUp (hrun : LinkRun R (.start name initialLag buckets table) before t)
    (hafter : LinkRun R t after u) (hclock : ClockForward (before ++ after))
    (hvalue : t.control.lag.value.Within lag)
    (hposts : ∀ view, .postLag view ∈ after → view.policy.Within lag)
    (hcatch : CatchesUp lag e after) {s3 : S3Link} (hs3 : s3 ∈ t.s3) :
    ∃ s3' ∈ u.s3, s3.Grows s3' ∧ ∃ x ∈ s3'.ledger.attempts, x.1.key = e.ref := by
  obtain ⟨idle, cycle, between, rest, t₁, t₂, pages, freshId, fate, rfl, hlisted, hlag⟩ := hcatch
  obtain ⟨u₁, hidle, hafter⟩ := hafter.split
  obtain ⟨u₂, htake, hafter⟩ := hafter.split
  obtain ⟨u₃, hcycle, hafter⟩ := hafter.split
  obtain ⟨u₄, hdiscover, hafter⟩ := hafter.split
  obtain ⟨u₅, hbetween, hafter⟩ := hafter.split
  obtain ⟨u₆, happly, hrest⟩ := hafter.split
  have hrun₃ := hrun.append (hidle.append (htake.append hcycle))
  have hrun₄ := hrun₃.append hdiscover
  have hrun₅ := hrun₄.append hbetween
  have hclock₅ : ClockForward (before ++ (idle ++ ([.takeLag] ++ cycle)) ++
      [.s3Discover t₁ pages] ++ between) := by
    have hall : ClockForward (before ++ (idle ++ ([.takeLag] ++ cycle)) ++
        [.s3Discover t₁ pages] ++ between ++ ([.s3Apply t₂ freshId fate] ++ rest)) := by
      simpa only [List.append_assoc] using hclock
    exact hall.left
  -- the entry is queued, no later than it is listed
  obtain ⟨s3₄, hs3₄, hgrows₄⟩ := grows_run
    (hidle.append (htake.append (hcycle.append hdiscover))) hs3
  obtain ⟨hmatches₄, -⟩ := (booked_run hrun₄ hclock₅.left).s3 s3₄ hs3₄
  obtain ⟨d, hd, hkey⟩ := queued_of_listed hdiscover.step_of_singleton hlisted hs3₄ hmatches₄
  have hdiscovered : d.discoveredAt.nanos ≤ t₁.nanos :=
    discoveredAt_le hrun₄ hclock₅.left hs3₄ hd
  -- the lag in force at the pass has elapsed for it
  have hprompt : u₅.Prompt lag := by
    have hvalue₁ := within_run hidle (fun view hview => hposts view (by simp [hview])) hvalue
    refine prompt_of_cycle (hrun.append hidle) htake.step_of_singleton
      (hcycle.append (hdiscover.append hbetween)) ?_ hvalue₁
    intro view hview
    refine hposts view ?_
    simp only [List.mem_append] at hview ⊢
    tauto
  obtain ⟨s3₅, hs3₅, hgrows₅⟩ := grows_run hbetween hs3₄
  have helapsed : d.discoveredAt.nanos + lag.nanos ≤ t₂.nanos := by omega
  obtain ⟨x, hx, rfl⟩ := attempted_of_prompt (booked_run hrun₅ hclock₅) hprompt hs3₅
    (hgrows₅.queued.subset hd) freshId fate helapsed
  obtain ⟨s3', hs3', hgrows⟩ := grows_run hrest (mem_s3_step happly.step_of_singleton hs3₅)
  refine ⟨s3', hs3', ?_, x, hgrows.attempts.subset hx, hkey⟩
  exact hgrows₄.trans (hgrows₅.trans ((S3Link.grows_run _).trans hgrows))

/-- While a link is paused nothing changes on its queues and targets. Once it is resumed, an entry
of the source, also one that was made meanwhile, is on the target after a cycle that lists it and
a pass at least the lag later, if the requests for it are answered. -/
theorem partition_heals (lag : Duration)
    (hrun : LinkRun R (.start name initialLag buckets table) before s)
    (hnodup : ∀ b ∈ buckets, (b.1.map S3Entry.ref).Nodup) (hpaused : s.control.paused = true)
    (hrest : s.stage.rest = []) (hcut : LinkRun R s during t) (hdown : .postResume ∉ during) :
    s.Frozen t ∧ ∀ after u, LinkRun R t after u → ClockForward (before ++ during ++ after) →
      t.control.lag.value.Within lag → (∀ view, .postLag view ∈ after → view.policy.Within lag) →
      ∀ s3 ∈ t.s3, ∀ e ∈ s3.source, CatchesUp lag e after →
        Answered e.ref (before ++ during ++ after) →
        ∃ s3' ∈ u.s3, e ∈ s3'.source ∧ e.CopiedTo s3'.target := by
  refine ⟨frozen_run hcut ⟨hpaused, hrest⟩ hdown, ?_⟩
  intro after u hafter hclock hvalue hposts s3 hs3 e he hcatch hanswered
  obtain ⟨s3', hs3', hgrows, x, hx, hkey⟩ := attempted_of_catchesUp (hrun.append hcut) hafter hclock
    hvalue hposts hcatch hs3
  obtain ⟨htracks, hdelivered⟩ :=
    tracks_run ((hrun.append hcut).append hafter) hnodup hanswered s3' hs3'
  have hsource := hgrows.source.subset he
  exact ⟨s3', hs3', hsource, htracks.copied x hx (hdelivered x hx hkey) e hsource hkey.symm⟩

/-- The version is made while the link is paused. -/
def pausedCycle : List LinkEvent :=
  [.takeLag, .readPaused, .change heldVersion, .publish ⟨3⟩ ⟨3⟩]

/-- A cycle that lists the version and whose requests are answered. -/
def cycleAt (now : SystemTime) : List LinkEvent :=
  [.takeLag, .readPaused, .s3Discover now heldPages,
    .s3Apply now (fun ref => ref.2) (fun _ => ⟨true, true, true, .delivered⟩),
    .ddbDiscover now [], .ddbApply now (fun _ => .delivered), .publish now now]

/-- The version is copied in the second cycle after the pause. -/
theorem partition_heals_held : ∃ s t u : Link,
    LinkRun plainRuntime (.start "west" (.fixed ⟨5⟩) (some ([], [])) none) [.postPause] s ∧
    LinkRun plainRuntime s pausedCycle t ∧ s.Frozen t ∧
    LinkRun plainRuntime t (.postResume :: (cycleAt ⟨10⟩ ++ cycleAt ⟨20⟩)) u ∧
    ∃ s3 ∈ u.s3, heldVersion ∈ s3.source ∧ heldVersion.CopiedTo s3.target := by
  obtain ⟨s, hrun, hpaused, hrest, t, hcut, hvalue, s3, hs3, hsource, u, hafter⟩ :
      ∃ s : Link, LinkRun plainRuntime (.start "west" (.fixed ⟨5⟩) (some ([], [])) none)
          [.postPause] s ∧ s.control.paused = true ∧ s.stage.rest = [] ∧
        ∃ t : Link, LinkRun plainRuntime s pausedCycle t ∧ t.control.lag.value = .fixed ⟨5⟩ ∧
        ∃ s3 ∈ t.s3, s3.source = [heldVersion] ∧
        ∃ u : Link, LinkRun plainRuntime t (.postResume :: (cycleAt ⟨10⟩ ++ cycleAt ⟨20⟩)) u := by
    refine ⟨_, .cons .postPause .refl, rfl, rfl, _, .cons (.takeLag rfl) (.cons (.readPaused rfl)
      (.cons (.change ?_) (.cons (.publish rfl) .refl))), rfl, _, rfl, rfl, _,
      .cons .postResume (.cons (.takeLag rfl) (.cons (.readPaused rfl) (.cons (.s3Discover rfl ?_)
        (.cons (.s3Apply rfl) (.cons (.ddbDiscover rfl) (.cons (.ddbApply rfl)
        (.cons (.publish rfl) (.cons (.takeLag rfl) (.cons (.readPaused rfl)
        (.cons (.s3Discover rfl ?_) (.cons (.s3Apply rfl) (.cons (.ddbDiscover rfl)
        (.cons (.ddbApply rfl) (.cons (.publish rfl) .refl))))))))))))))⟩
    · intro s3 hs3
      cases hs3
      exact List.not_mem_nil
    · intro s3 hs3
      cases hs3
      exact listedOffers_heldPages
    · intro s3 hs3
      cases hs3
      exact listedOffers_heldPages
  obtain ⟨hfrozen, hheals⟩ :=
    partition_heals ⟨5⟩ hrun (by simp) hpaused hrest hcut (by simp [pausedCycle])
  refine ⟨s, t, u, hrun, hcut, hfrozen, hafter, ?_⟩
  refine hheals _ u hafter (by decide) (by rw [hvalue]; exact Nat.le_refl 5) ?_ s3 hs3 heldVersion
    (by rw [hsource]; exact List.mem_singleton_self _) ?_ ?_
  · intro view hview
    simp [cycleAt] at hview
  · exact ⟨[.postResume], [.readPaused], (cycleAt ⟨10⟩).drop 3 ++ (cycleAt ⟨20⟩).take 3,
      (cycleAt ⟨20⟩).drop 4, ⟨10⟩, ⟨20⟩, heldPages, _, _, rfl,
      List.mem_singleton_self _, by decide⟩
  · intro now freshId fate hmem
    simp [pausedCycle, cycleAt] at hmem
    obtain ⟨-, -, rfl⟩ | ⟨-, -, rfl⟩ := hmem
    · exact ⟨rfl, rfl⟩
    · exact ⟨rfl, rfl⟩

end healing

end DevReplicator
