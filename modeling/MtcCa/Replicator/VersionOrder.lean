import MtcCa.Replicator.Delivery

/-! In which order the versions of a key reach the target. -/
namespace DevReplicator

open Cloud

/-- An entry as a listing names it. -/
def S3Entry.listedName (e : S3Entry) : Option String × Option String :=
  (some e.objectKey, some e.versionId)

/-- The page that lists some entries: versions and delete markers apart. -/
def pageOf (chunk : S3Bucket) : ListPage where
  versions := (chunk.filter (fun e => !e.content.isNone)).map S3Entry.listedName
  deleteMarkers := (chunk.filter (fun e => e.content.isNone)).map S3Entry.listedName

/-- A listing of the bucket, cut into pages: every entry once, those of a key the newest
first. -/
structure IsListing (source : S3Bucket) (chunks : List S3Bucket) : Prop where
  perm : chunks.flatten.Perm source
  newestFirst : ∀ key, chunks.flatten.filter (fun e => e.objectKey = key) =
    (source.filter (fun e => e.objectKey = key)).reverse

/-- The order in which a page is looked at. -/
def inPage (chunk : S3Bucket) : S3Bucket :=
  chunk.filter (fun e => !e.content.isNone) ++ chunk.filter (fun e => e.content.isNone)

def S3Entry.event (e : S3Entry) : S3VersionEvent := ⟨e.objectKey, e.versionId, e.content.isNone⟩

/-- At most one entry, or a version and a newer delete marker on one page. -/
def OneStep (chunks : List S3Bucket) (new : S3Bucket) : Prop :=
  new.length ≤ 1 ∨ ∃ version marker, new = [version, marker] ∧ version.content.isNone = false ∧
    marker.content.isNone = true ∧ ∃ chunk ∈ chunks, version ∈ chunk ∧ marker ∈ chunk

section listing

variable {chunks : List S3Bucket} {chunk new : S3Bucket} {P : S3Entry → Bool}

theorem pageOffers_pageOf :
    S3Poller.pageOffers (pageOf chunk) = (inPage chunk).map (fun e => (e.ref, e.event)) := by
  have hnames : ∀ (l : S3Bucket) (isDeleteMarker : Bool),
      (∀ e ∈ l, e.content.isNone = isDeleteMarker) →
      (l.map S3Entry.listedName).filterMap (S3Poller.listed isDeleteMarker) =
        l.map (fun e => (e.ref, e.event)) := by
    intro l isDeleteMarker hl
    rw [List.filterMap_map, ← List.filterMap_eq_map]
    refine List.filterMap_congr (fun e he => ?_)
    simp [S3Poller.listed, S3Entry.listedName, S3Entry.ref, S3Entry.event, hl e he]
  rw [S3Poller.pageOffers, pageOf, inPage, List.map_append,
    hnames _ false (fun e he => by simpa using (List.mem_filter.mp he).2),
    hnames _ true (fun e he => (List.mem_filter.mp he).2)]

theorem inPage_perm (chunk : S3Bucket) : (inPage chunk).Perm chunk := by
  have hperm := List.filter_append_perm (fun e : S3Entry => !e.content.isNone) chunk
  simpa only [inPage, Bool.not_not] using hperm

theorem flatMap_inPage_perm (chunks : List S3Bucket) :
    (chunks.flatMap inPage).Perm chunks.flatten := by
  have hperm := List.Perm.flatMap_left chunks (fun chunk _ => inPage_perm chunk)
  simpa using hperm

theorem filter_inPage : (inPage chunk).filter P = inPage (chunk.filter P) := by
  rw [inPage, inPage, List.filter_append, List.filter_comm, List.filter_comm P]

/-- A single step is looked at in the order it was made, although it is listed backwards. -/
theorem filter_flatMap_inPage (hlisted : chunks.flatten.filter P = new.reverse)
    (hnew : OneStep chunks new) : (chunks.flatMap inPage).filter P = new := by
  rcases hnew with hone | ⟨version, marker, rfl, hversion, hmarker, chunk, hchunk, hv, hm⟩
  · have hperm := (flatMap_inPage_perm chunks).filter P
    rw [hlisted] at hperm
    have hperm' := hperm.trans (List.reverse_perm new)
    match new, hone, hperm' with
    | [], _, hperm' => exact hperm'.eq_nil
    | [e], _, hperm' => exact List.perm_singleton.mp hperm'
  · obtain ⟨before, after, rfl⟩ := List.append_of_mem hchunk
    have hP : ∀ e ∈ [version, marker], P e = true := by
      intro e he
      have hmem : e ∈ List.filter P (before ++ chunk :: after).flatten := by
        rw [hlisted]
        exact List.mem_reverse.mpr he
      exact (List.mem_filter.mp hmem).2
    have hv' : version ∈ chunk.filter P := List.mem_filter.mpr ⟨hv, hP _ (by simp)⟩
    have hm' : marker ∈ chunk.filter P := List.mem_filter.mpr ⟨hm, hP _ (by simp)⟩
    have hne : version ≠ marker := by
      rintro rfl
      rw [hversion] at hmarker
      cases hmarker
    have hsub : [version, marker].Subperm (chunk.filter P) :=
      List.subperm_of_subset (by simp [hne]) (by
        intro e he
        rcases List.mem_cons.mp he with rfl | he
        · exact hv'
        · rw [List.mem_singleton.mp he]
          exact hm')
    rw [List.flatten_append, List.flatten_cons, List.filter_append, List.filter_append] at hlisted
    have hlen := congrArg List.length hlisted
    simp only [List.length_append, List.length_reverse, List.length_cons, List.length_nil] at hlen
    have hlen' := hsub.length_le
    simp only [List.length_cons, List.length_nil] at hlen'
    have hbefore : before.flatten.filter P = [] := List.length_eq_zero_iff.mp (by omega)
    have hafter : after.flatten.filter P = [] := List.length_eq_zero_iff.mp (by omega)
    have hnil : ∀ cs : List S3Bucket, cs.flatten.filter P = [] →
        (cs.flatMap inPage).filter P = [] := by
      intro cs hcs
      have hperm := (flatMap_inPage_perm cs).filter P
      rw [hcs] at hperm
      exact hperm.eq_nil
    rw [hbefore, hafter, List.nil_append, List.append_nil] at hlisted
    rw [List.flatMap_append, List.flatMap_cons, List.filter_append, List.filter_append,
      hnil _ hbefore, hnil _ hafter, filter_inPage, hlisted, List.nil_append, List.append_nil]
    rw [inPage, List.reverse_cons, List.reverse_singleton, List.singleton_append]
    rw [List.filter_cons_of_neg (by simp [hmarker]), List.filter_cons_of_pos (by simp [hversion]),
      List.filter_cons_of_pos (p := fun e : S3Entry => e.content.isNone) hmarker,
      List.filter_cons_of_neg (by simp [hversion])]
    rfl

end listing

/-- A step of the source and its link in which every request succeeds. -/
inductive S3Cycle where
  | change (entry : S3Entry)
  | poll (now : SystemTime) (chunks : List S3Bucket)
  | applyDue (now : SystemTime) (freshId : S3Key → String)
  | setLagPolicy (policy : LagPolicy)

def S3Cycle.action : S3Cycle → S3Action
  | .change entry => .change entry
  | .poll now chunks => .discover now (chunks.map (fun chunk => .ok (pageOf chunk)))
  | .applyDue now freshId => .applyDue now freshId (fun _ => ⟨true, true, true, .delivered⟩)
  | .setLagPolicy policy => .setLagPolicy policy

namespace S3Link

/-- The entries of a key that were never queued, in the order they were created. -/
def unseen (link : S3Link) (key : String) : S3Bucket :=
  (link.source.filter (fun e => e.objectKey = key)).filter
    (fun e => e.ref ∉ link.poller.scheduler.seen)

/-- What the services guarantee of a step: fresh version ids and complete listings. -/
def Served (link : S3Link) : S3Cycle → Prop
  | .change entry => entry.ref ∉ link.source.map S3Entry.ref
  | .poll _ chunks => IsListing link.source chunks
  | _ => True

/-- A poll finds of each key at most one new entry, or a version and a newer delete marker on
one page. -/
def PollsInStep (link : S3Link) : S3Cycle → Prop
  | .poll _ chunks => ∀ key, OneStep chunks (link.unseen key)
  | _ => True

/-- A property of every step of a run. -/
def Throughout (P : S3Link → S3Cycle → Prop) : S3Link → List S3Cycle → Prop
  | _, [] => True
  | link, c :: cycles => P link c ∧ Throughout P (link.step c.action) cycles

/-- The content of a version of the source. -/
def contentOf (source : S3Bucket) (ref : S3Key) : Option S3Object :=
  (source.find? (fun e => e.ref = ref)).bind S3Entry.content

def ofKey (key : String) (refs : List S3Key) : List S3Key :=
  refs.filter (fun ref => ref.1 = key)

/-- The changes of each key were queued in the order they were made, none left out, and what
left the queue was written with its content. -/
structure InOrder (link : S3Link) : Prop where
  matchesLedger : link.Matches
  nodup : (link.source.map S3Entry.ref).Nodup
  queued : ∀ key, ofKey key (link.ledger.queued.map Discovered.key) <+:
    ofKey key (link.source.map S3Entry.ref)
  event : ∀ d ∈ link.ledger.queued, ∃ e ∈ link.source, e.ref = d.key ∧ d.event = e.event
  target : link.target.map (fun e => (e.objectKey, e.content)) =
    link.ledger.attempts.map (fun a => (a.1.key.1, contentOf link.source a.1.key))

variable {link : S3Link} {source : S3Bucket} {e : S3Entry} {key : String}

theorem contentOf_of_mem (hnodup : (source.map S3Entry.ref).Nodup) (he : e ∈ source) :
    contentOf source e.ref = e.content := by
  have hfind : source.find? (fun e' => e'.ref = e.ref) = some e := by
    cases h : source.find? (fun e' => e'.ref = e.ref) with
    | none => simpa using List.find?_eq_none.mp h e he
    | some e' =>
      have href : e'.ref = e.ref := by simpa using List.find?_some h
      rw [List.inj_on_of_nodup_map hnodup (List.mem_of_find?_eq_some h) he href]
  rw [contentOf, hfind]
  rfl

theorem getObject_eq_contentOf (source : S3Bucket) (e : S3Entry) :
    S3Poller.getObject source e.event = contentOf source e.ref := by
  have hsame : ∀ e' : S3Entry, (e'.objectKey = e.event.objectKey ∧
      e'.versionId = e.event.versionId) ↔ e'.ref = e.ref := fun e' => Prod.mk_inj.symm
  simp only [S3Poller.getObject, contentOf, hsame]

theorem InOrder.change (h : link.InOrder) {entry : S3Entry}
    (hfresh : entry.ref ∉ link.source.map S3Entry.ref) :
    (link.step (.change entry)).InOrder := by
  have hsource : (link.step (.change entry)).source.map S3Entry.ref =
      link.source.map S3Entry.ref ++ [entry.ref] := List.map_append
  refine ⟨h.matchesLedger, ?_, ?_, ?_, ?_⟩
  · rw [hsource]
    exact List.nodup_append'.mpr ⟨h.nodup, List.nodup_singleton _,
      List.disjoint_singleton.mpr hfresh⟩
  · intro key
    rw [hsource, ofKey, ofKey, List.filter_append]
    exact (h.queued key).trans (List.prefix_append _ _)
  · intro d hd
    obtain ⟨e, he, hkey⟩ := h.event d hd
    exact ⟨e, List.mem_append_left _ he, hkey⟩
  · refine h.target.trans ?_
    refine List.map_congr_left (fun a ha => ?_)
    have hqueued : a.1 ∈ link.ledger.queued := by
      rw [h.matchesLedger.queued]
      exact List.mem_append_left _ (List.mem_map_of_mem ha)
    obtain ⟨e, he, hkey, -⟩ := h.event a.1 hqueued
    have hnodup' : (link.source.map S3Entry.ref ++ [entry.ref]).Nodup :=
      List.nodup_append'.mpr ⟨h.nodup, List.nodup_singleton _, List.disjoint_singleton.mpr hfresh⟩
    rw [← hsource] at hnodup'
    rw [← hkey, contentOf_of_mem h.nodup he,
      contentOf_of_mem hnodup' (List.mem_append_left _ he)]

theorem ofKey_refs (key : String) (source : S3Bucket) :
    ofKey key (source.map S3Entry.ref) =
      (source.filter (fun e => e.objectKey = key)).map S3Entry.ref := by
  rw [ofKey, List.filter_map]
  rfl

/-- A listing is offered entry by entry. -/
theorem offers_poll (chunks : List S3Bucket) :
    (S3Poller.readPages (chunks.map (fun chunk => .ok (pageOf chunk)))).flatMap
      S3Poller.pageOffers = (chunks.flatMap inPage).map (fun e => (e.ref, e.event)) := by
  induction chunks with
  | nil => rfl
  | cons chunk chunks ih =>
    rw [List.map_cons, S3Poller.readPages, List.flatMap_cons, List.flatMap_cons, List.map_append,
      ih, pageOffers_pageOf]

/-- What a poll adds to the ledger: the listed entries that were never queued. -/
theorem queued_poll (h : link.InOrder) (now : SystemTime) {chunks : List S3Bucket}
    (hlisting : IsListing link.source chunks) :
    (link.step (S3Cycle.poll now chunks).action).ledger.queued = link.ledger.queued ++
      ((chunks.flatMap inPage).filter (fun e => e.ref ∉ link.poller.scheduler.seen)).map
        (fun e => ⟨e.ref, e.event, now⟩) := by
  have hperm := ((flatMap_inPage_perm chunks).trans hlisting.perm).map S3Entry.ref
  have hnodup : (((chunks.flatMap inPage).map (fun e => (e.ref, e.event))).map Prod.fst).Nodup := by
    rw [List.map_map]
    exact hperm.nodup_iff.mpr h.nodup
  have hpending := LagScheduler.offerAll_pending hnodup link.poller.scheduler now
  rw [← offers_poll, ← S3Poller.scheduler_discover, offers_poll] at hpending
  have hqueued : (link.step (S3Cycle.poll now chunks).action).ledger.queued =
      link.ledger.queued ++ ((link.poller.discover now
        (chunks.map (fun chunk => .ok (pageOf chunk)))).2.scheduler.pending.drop
          link.poller.scheduler.pending.length) := rfl
  rw [hqueued, hpending, List.drop_left, List.filter_map, List.map_map]
  rfl

/-- After an in-step poll everything of a key is queued, in order. -/
theorem ofKey_queued_poll (h : link.InOrder) (now : SystemTime) {chunks : List S3Bucket}
    (hlisting : IsListing link.source chunks) (hstep : OneStep chunks (link.unseen key)) :
    ofKey key ((link.step (S3Cycle.poll now chunks).action).ledger.queued.map Discovered.key) =
      ofKey key (link.source.map S3Entry.ref) := by
  have hlisted : chunks.flatten.filter (fun e => decide (e.objectKey = key) &&
      decide (e.ref ∉ link.poller.scheduler.seen)) = (link.unseen key).reverse := by
    rw [← List.filter_filter, List.filter_comm, hlisting.newestFirst, List.filter_reverse]
    rfl
  have hnew := filter_flatMap_inPage hlisted hstep
  obtain ⟨rest, hrest⟩ := h.queued key
  have hunseen : (link.unseen key).map S3Entry.ref = rest := by
    have hmap : (link.unseen key).map S3Entry.ref = (ofKey key (link.source.map S3Entry.ref)).filter
        (fun ref => ref ∉ link.poller.scheduler.seen) := by
      rw [ofKey_refs, List.filter_map]
      rfl
    have hnodup : (ofKey key (link.source.map S3Entry.ref)).Nodup := h.nodup.filter _
    rw [← hrest, List.nodup_append'] at hnodup
    rw [hmap, ← hrest, List.filter_append, List.filter_eq_nil_iff.mpr, List.nil_append,
      List.filter_eq_self.mpr]
    · intro ref href
      refine decide_eq_true (fun hseen => ?_)
      have hqueued := h.matchesLedger.mem_seen.mp hseen
      have hkey : ref.1 = key := by
        have hmem : ref ∈ ofKey key (link.source.map S3Entry.ref) := by
          rw [← hrest]
          exact List.mem_append_right _ href
        simpa using (List.mem_filter.mp hmem).2
      exact hnodup.2.2 (List.mem_filter.mpr ⟨hqueued, decide_eq_true hkey⟩) href
    · intro ref href
      rw [decide_eq_true_eq, not_not]
      exact h.matchesLedger.mem_seen.mpr (List.mem_filter.mp href).1
  rw [queued_poll h now hlisting, List.map_append, List.map_map, ofKey, List.filter_append, ← hrest]
  refine congrArg _ ?_
  rw [← hunseen, ← hnew, List.filter_map, List.filter_filter]
  rfl

theorem InOrder.poll (h : link.InOrder) (now : SystemTime) {chunks : List S3Bucket}
    (hlisting : IsListing link.source chunks) (hstep : ∀ key, OneStep chunks (link.unseen key)) :
    (link.step (S3Cycle.poll now chunks).action).InOrder := by
  refine ⟨matches_step h.matchesLedger, h.nodup, ?_, ?_, h.target⟩
  · intro key
    rw [ofKey_queued_poll h now hlisting (hstep key)]
    exact List.prefix_refl _
  · intro d hd
    rw [queued_poll h now hlisting] at hd
    rcases List.mem_append.mp hd with hd | hd
    · exact h.event d hd
    · obtain ⟨e, he, rfl⟩ := List.mem_map.mp hd
      have hmem := (List.mem_filter.mp he).1
      exact ⟨e, hlisting.perm.mem_iff.mp ((flatMap_inPage_perm chunks).mem_iff.mp hmem), rfl, rfl⟩

/-- Applying a batch with every request answered appends the content of each change. -/
theorem map_applyAll {source : S3Bucket} (hnodup : (source.map S3Entry.ref).Nodup)
    (freshId : S3Key → String) {due : List (Discovered S3Key S3VersionEvent)}
    (hdue : ∀ d ∈ due, ∃ e ∈ source, e.ref = d.key ∧ d.event = e.event) (target : S3Bucket) :
    (applyAll (fun item target => S3Poller.applyOne source (freshId item.key)
        ⟨true, true, true, .delivered⟩ item.event target) due target).2.map
          (fun e => (e.objectKey, e.content)) =
      target.map (fun e => (e.objectKey, e.content)) ++
        due.map (fun d => (d.key.1, contentOf source d.key)) := by
  induction due generalizing target with
  | nil => simp [applyAll]
  | cons d due ih =>
    obtain ⟨hd, hdue⟩ := List.forall_mem_cons.mp hdue
    obtain ⟨e, he, hkey, hevent⟩ := hd
    refine (ih hdue (S3Poller.applyOne source (freshId d.key) ⟨true, true, true, .delivered⟩
      d.event target).2).trans ?_
    have hcontent := contentOf_of_mem hnodup he
    have hget := getObject_eq_contentOf source e
    rw [hcontent] at hget
    have hone : (S3Poller.applyOne source (freshId d.key) ⟨true, true, true, .delivered⟩ d.event
        target).2 = target ++ [⟨e.objectKey, freshId d.key, e.content⟩] := by
      rw [hevent]
      unfold S3Poller.applyOne
      cases hmarker : e.content with
      | none => simp [S3Entry.event, hmarker, S3Poller.send]
      | some get =>
        rw [hmarker] at hget
        simp [S3Entry.event, hmarker] at hget ⊢
        simp [hget, S3Poller.send]
    have hhead : (d.key.1, contentOf source d.key) = (e.objectKey, e.content) := by
      rw [← hkey, hcontent]
      rfl
    rw [hone, List.map_append, List.append_assoc, List.map_cons (l := due), hhead]
    rfl

theorem InOrder.applyDue (h : link.InOrder) (now : SystemTime) (freshId : S3Key → String) :
    (link.step (S3Cycle.applyDue now freshId).action).InOrder := by
  refine ⟨matches_step h.matchesLedger, h.nodup, h.queued, h.event, ?_⟩
  have hdrain : link.poller.scheduler.pending = _ ∧ _ := LagScheduler.drainDue_spec
    (show link.poller.scheduler.drainDue now = (_, _) from rfl)
  have hdue : ∀ d ∈ (link.poller.scheduler.drainDue now).1,
      ∃ e ∈ link.source, e.ref = d.key ∧ d.event = e.event := by
    intro d hd
    refine h.event d ?_
    rw [h.matchesLedger.queued, hdrain.1]
    exact List.mem_append_right _ (List.mem_append_left _ hd)
  refine (map_applyAll h.nodup freshId hdue link.target).trans ?_
  rw [h.target]
  refine Eq.trans ?_ List.map_append.symm
  refine congrArg _ ?_
  have hfst : (applyAll (fun item target => S3Poller.applyOne link.source
      (freshId item.key) ⟨true, true, true, .delivered⟩ item.event target)
        (link.poller.scheduler.drainDue now).1 link.target).1.map Prod.fst = _ := map_fst_applyAll
  exact (congrArg (List.map (fun d => (d.key.1, contentOf link.source d.key))) hfst.symm).trans
    List.map_map

theorem inOrder_new (policy : LagPolicy) (hnodup : (source.map S3Entry.ref).Nodup) :
    (new policy source []).InOrder :=
  ⟨matches_new policy source [], hnodup, fun _ => List.nil_prefix,
    fun _ hd => absurd hd List.not_mem_nil, rfl⟩

theorem InOrder.run {cycles : List S3Cycle} (h : link.InOrder)
    (hserved : Throughout Served link cycles) (hstep : Throughout PollsInStep link cycles) :
    (link.run (cycles.map S3Cycle.action)).InOrder := by
  induction cycles generalizing link with
  | nil => exact h
  | cons c cycles ih =>
    obtain ⟨hc, hserved⟩ := hserved
    obtain ⟨hs, hstep⟩ := hstep
    refine ih ?_ hserved hstep
    cases c with
    | change entry => exact h.change hc
    | poll now chunks => exact h.poll now hc hs
    | applyDue now freshId => exact h.applyDue now freshId
    | setLagPolicy policy =>
      exact ⟨matches_step h.matchesLedger, h.nodup, h.queued, h.event, h.target⟩

/-- The versions and delete markers of a key that were applied, in order. -/
def appliedRefs (link : S3Link) (key : String) : List S3Key :=
  ofKey key (link.ledger.attempts.map (fun a => a.1.key))

theorem InOrder.applied_prefix (h : link.InOrder) (key : String) :
    link.appliedRefs key <+: ofKey key (link.source.map S3Entry.ref) := by
  refine List.IsPrefix.trans ?_ (h.queued key)
  rw [h.matchesLedger.queued, List.map_append, List.map_map]
  simp only [appliedRefs, ofKey, List.filter_append]
  exact List.prefix_append _ _

/-- Once everything of the source was queued and applied, its key holds there what it holds
here. -/
theorem InOrder.current_eq (h : link.InOrder) (hpending : link.poller.scheduler.pending = [])
    (hseen : ∀ e ∈ link.source, e.ref ∈ link.poller.scheduler.seen) (key : String) :
    link.target.current key = link.source.current key := by
  have hall : link.appliedRefs key = ofKey key (link.source.map S3Entry.ref) := by
    refine (h.applied_prefix key).eq_of_length_le ?_
    refine ((h.nodup.filter _).subperm ?_).length_le
    intro ref href
    obtain ⟨href, hkey⟩ := List.mem_filter.mp href
    obtain ⟨e, he, rfl⟩ := List.mem_map.mp href
    have hqueued := h.matchesLedger.mem_seen.mp (hseen e he)
    rw [h.matchesLedger.queued, hpending, List.append_nil, List.map_map] at hqueued
    exact List.mem_filter.mpr ⟨hqueued, hkey⟩
  have hcontents : ∀ b : S3Bucket, b.current key =
      (((b.map (fun e => (e.objectKey, e.content))).filter (fun p => p.1 = key)).getLast?).bind
        Prod.snd := by
    intro b
    rw [S3Bucket.current, List.filter_map, List.getLast?_map, Option.bind_map]
    rfl
  have hsource : link.source.map (fun e => (e.objectKey, e.content)) =
      (link.source.map S3Entry.ref).map (fun ref => (ref.1, contentOf link.source ref)) := by
    rw [List.map_map]
    refine List.map_congr_left (fun e he => ?_)
    exact congrArg (Prod.mk e.objectKey) (contentOf_of_mem h.nodup he).symm
  have hfilter : ∀ refs : List S3Key,
      (refs.map (fun ref => (ref.1, contentOf link.source ref))).filter (fun p => p.1 = key) =
        (ofKey key refs).map (fun ref => (ref.1, contentOf link.source ref)) := by
    intro refs
    rw [List.filter_map]
    rfl
  have htarget : link.target.map (fun e => (e.objectKey, e.content)) =
      (link.ledger.attempts.map (fun a => a.1.key)).map
        (fun ref => (ref.1, contentOf link.source ref)) := by
    rw [h.target, List.map_map]
    rfl
  rw [hcontents, hcontents, htarget, hsource, hfilter, hfilter]
  rw [show ofKey key _ = ofKey key _ from hall]

end S3Link

/-- In a run whose polls find each key at most one step ahead, the changes of every key are
applied in the order they were made, and once everything is applied both buckets hold the
same. -/
theorem versions_applied_in_order (policy : LagPolicy) (source : S3Bucket)
    (hnodup : (source.map S3Entry.ref).Nodup) (cycles : List S3Cycle)
    (hserved : S3Link.Throughout S3Link.Served (.new policy source []) cycles)
    (hstep : S3Link.Throughout S3Link.PollsInStep (.new policy source []) cycles) :
    let link := (S3Link.new policy source []).run (cycles.map S3Cycle.action)
    (∀ key, link.appliedRefs key <+: S3Link.ofKey key (link.source.map S3Entry.ref)) ∧
      (link.poller.scheduler.pending = [] →
        (∀ e ∈ link.source, e.ref ∈ link.poller.scheduler.seen) →
        ∀ key, link.target.current key = link.source.current key) := by
  have h := (S3Link.inOrder_new policy hnodup).run hserved hstep
  exact ⟨h.applied_prefix, h.current_eq⟩

/-- A version of one key. -/
def sampleVersion (id : String) (body : List UInt8) : S3Entry :=
  ⟨"tile/0", id, some ⟨body, none, none, none, none⟩⟩

theorem isListing_reverse (entries : S3Bucket) : IsListing entries [entries.reverse] := by
  refine ⟨?_, ?_⟩
  · rw [List.flatten_singleton]
    exact List.reverse_perm _
  · intro key
    rw [List.flatten_singleton, List.filter_reverse]

def sampleMarker (id : String) : S3Entry := ⟨"tile/0", id, none⟩

def listedVersion : S3Bucket := [sampleVersion "v1" [1]]

def listedDeletion : S3Bucket := listedVersion ++ [sampleVersion "v2" [2], sampleMarker "m3"]

/-- A version is replicated; the next poll finds a second one and its deletion. -/
def replacedAndDeleted : List S3Cycle :=
  [.change (sampleVersion "v1" [1]), .poll ⟨0⟩ [listedVersion.reverse],
    .applyDue ⟨1⟩ (fun ref => ref.2), .change (sampleVersion "v2" [2]), .change (sampleMarker "m3"),
    .poll ⟨2⟩ [listedDeletion.reverse], .applyDue ⟨3⟩ (fun ref => ref.2)]

theorem versions_applied_in_order_deleted :
    let link := (S3Link.new .immediate [] []).run (replacedAndDeleted.map S3Cycle.action)
    link.appliedRefs "tile/0" <+: [("tile/0", "v1"), ("tile/0", "v2"), ("tile/0", "m3")] ∧
      (link.appliedRefs "tile/0").length = 3 ∧
      ∀ key, link.target.current key = link.source.current key := by
  have hsecond : (sampleVersion "v2" [2]).ref ∉ [("tile/0", "v1")] := by decide
  have hthird : (sampleMarker "m3").ref ∉ [("tile/0", "v1"), ("tile/0", "v2")] := by decide
  have hserved : S3Link.Throughout S3Link.Served (.new .immediate [] []) replacedAndDeleted :=
    ⟨List.not_mem_nil, isListing_reverse _, trivial, hsecond, hthird, isListing_reverse _, trivial,
      trivial⟩
  have hstep : S3Link.Throughout S3Link.PollsInStep (.new .immediate [] [])
      replacedAndDeleted := by
    refine ⟨trivial, fun key => Or.inl ?_, trivial, trivial, trivial, fun key => ?_, trivial,
      trivial⟩
    · exact (List.length_filter_le _ _).trans (List.length_filter_le _ _)
    · by_cases hkey : "tile/0" = key
      · subst hkey
        exact Or.inr ⟨sampleVersion "v2" [2], sampleMarker "m3", by decide +kernel, rfl, rfl, _,
          List.mem_singleton_self _, by decide, by decide⟩
      · have hnone : listedDeletion.filter (fun e => e.objectKey = key) = [] := by
          simp [listedDeletion, listedVersion, sampleVersion, sampleMarker, hkey]
        refine Or.inl ((List.length_filter_le _ _).trans ?_)
        exact (congrArg List.length hnone).le.trans (Nat.zero_le 1)
  obtain ⟨hfront, hcurrent⟩ :=
    versions_applied_in_order .immediate [] List.nodup_nil replacedAndDeleted hserved hstep
  exact ⟨hfront "tile/0", by decide +kernel,
    hcurrent (List.isEmpty_iff.mp (by decide +kernel)) (by decide +kernel)⟩

/-- Two versions of a key between two polls. -/
def twoVersions : List S3Cycle :=
  [.change (sampleVersion "v1" [1]), .change (sampleVersion "v2" [2]),
    .poll ⟨0⟩ [[sampleVersion "v1" [1], sampleVersion "v2" [2]].reverse],
    .applyDue ⟨1⟩ (fun ref => ref.2)]

/-- The newer version is applied first, so the older one is current on the target. -/
theorem two_versions_reversed :
    S3Link.Throughout S3Link.Served (.new .immediate [] []) twoVersions ∧
      let link := (S3Link.new .immediate [] []).run (twoVersions.map S3Cycle.action)
      link.poller.pendingLen = 0 ∧
        link.appliedRefs "tile/0" = [("tile/0", "v2"), ("tile/0", "v1")] ∧
        link.source.current "tile/0" = some ⟨[2], none, none, none, none⟩ ∧
        link.target.current "tile/0" = some ⟨[1], none, none, none, none⟩ := by
  have hfresh : ("tile/0", "v2") ∉ [("tile/0", "v1")] := by decide
  refine ⟨⟨List.not_mem_nil, hfresh, isListing_reverse _, trivial, trivial⟩, ?_⟩
  refine ⟨by decide +kernel, by decide +kernel, by decide +kernel, by decide +kernel⟩

end DevReplicator
