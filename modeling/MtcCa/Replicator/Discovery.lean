import MtcCa.Replicator.Delivery

/-! What scan-diff discovery notices: the queued changes, replayed, against the scanned table. -/
namespace DevReplicator

open Cloud Cloud.Dynamo

/-- The items of a table by key. -/
abbrev Contents := PrimaryKey → Option Attributes

/-- A complete scan of a table: every item has its key, and no two share it. -/
structure Scan where
  pages : List (List ScannedItem)
  keyed : ∀ x ∈ pages.flatten, x.key.isSome
  distinct : (pages.flatten.map ScannedItem.key).Nodup

/-- The items of a scan by key, as the scan returned them. -/
abbrev Found := PrimaryKey → Option ScannedItem

def Scan.found (scan : Scan) : Found := fun key =>
  scan.pages.flatten.find? (fun x => x.key = some key)

/-- What the table held. -/
def Found.contents (found : Found) : Contents := fun key => (found key).map ScannedItem.item

def Scan.contents (scan : Scan) : Contents := Found.contents scan.found

/-- One successful scan, one pass over what is due, or one change of the lag. -/
inductive Cycle where
  | scan (now : SystemTime) (scan : Scan)
  | applyDue (now : SystemTime) (fate : DdbKey → Fate)
  | setLagPolicy (policy : LagPolicy)

def Cycle.action : Cycle → DdbAction
  | .scan now s => .discover now (s.pages.map .ok)
  | .applyDue now fate => .applyDue now fate
  | .setLagPolicy policy => .setLagPolicy policy

/-- The item a change leaves at its key. -/
def DdbChange.value : DdbChange → Option Attributes
  | .upsert _ item => some item
  | .delete _ => none

/-- The contents after some changes, in order. -/
def replay (contents : Contents) (changes : List DdbChange) : Contents :=
  changes.foldl (fun contents c => Function.update contents c.key c.value) contents

/-- What the scans found so far, the latest first; before the first scan the table counts as
empty. -/
def history (cycles : List Cycle) : List Found :=
  cycles.foldl (fun seen c =>
    match c with
    | .scan _ scan => scan.found :: seen
    | _ => seen) [fun _ => none]

/-- What the last scan found. -/
def latest (seen : List Found) : Found := seen.headD (fun _ => none)

/-- Some scan missed the key right after one that saw it. -/
def VanishedBefore (key : PrimaryKey) : List Found → Prop
  | later :: earlier :: seen =>
    (earlier key ≠ none ∧ later key = none) ∨ VanishedBefore key (earlier :: seen)
  | _ => False

/-- Every key that the scan finds changed is in a state it is found in for the first time: an
item whose fingerprint, as this scan renders it, no earlier scan saw at the key, or a first
disappearance. -/
def Unrevisited (R : Runtime) (seen : List Found) (found : Found) : Prop :=
  ∀ key, found.contents key ≠ (latest seen).contents key →
    match found key with
    | some x => ∀ earlier ∈ seen, ∀ old, earlier key = some old →
        fingerprintOf R old ≠ fingerprintOf R x
    | none => ¬ VanishedBefore key seen

section replay

variable {contents : Contents} {changes : List DdbChange} {key : PrimaryKey} {c : DdbChange}

theorem replay_append (changes' : List DdbChange) :
    replay contents (changes ++ changes') = replay (replay contents changes) changes' :=
  List.foldl_append

theorem replay_of_notMem (h : key ∉ changes.map DdbChange.key) :
    replay contents changes key = contents key := by
  induction changes generalizing contents with
  | nil => rfl
  | cons c changes ih =>
    rw [List.map_cons, List.mem_cons, not_or] at h
    exact (ih h.2).trans (Function.update_of_ne h.1 _ _)

theorem replay_of_mem (hnodup : (changes.map DdbChange.key).Nodup) (hc : c ∈ changes) :
    replay contents changes c.key = c.value := by
  induction changes generalizing contents with
  | nil => cases hc
  | cons d changes ih =>
    obtain ⟨hd, hnodup⟩ := List.nodup_cons.mp hnodup
    rcases List.mem_cons.mp hc with rfl | hc
    · exact (replay_of_notMem hd).trans (Function.update_self ..)
    · exact ih hnodup hc

end replay

section scan

variable {R : Runtime} {scan : Scan} {key : PrimaryKey} {x : ScannedItem} {f : String}

theorem Scan.found_eq_some_iff :
    scan.found key = some x ↔ x ∈ scan.pages.flatten ∧ x.key = some key := by
  constructor
  · intro h
    exact ⟨List.mem_of_find?_eq_some h, by simpa using List.find?_some h⟩
  · rintro ⟨hmem, hkey⟩
    cases hfind : scan.found key with
    | none => exact absurd hkey (by simpa using List.find?_eq_none.mp hfind x hmem)
    | some other =>
      have hother : other.key = some key := by simpa using List.find?_some hfind
      rw [List.inj_on_of_nodup_map scan.distinct (List.mem_of_find?_eq_some hfind) hmem
        (hother.trans hkey.symm)]

theorem Found.contents_eq_none_iff {found : Found} : found.contents key = none ↔ found key = none :=
  Option.map_eq_none_iff

theorem readItems_map_ok (pages : List (List ScannedItem)) :
    readItems (pages.map .ok) = pages.flatten := by
  induction pages with
  | nil => rfl
  | cons items pages ih => rw [List.map_cons, readItems, ih, List.flatten_cons]

theorem scanResult_map_ok (pages : List (List ScannedItem)) :
    scanResult (pages.map .ok) = .ok () := by
  induction pages with
  | nil => rfl
  | cons items pages ih => exact ih

theorem Scan.mem_scannedKeys :
    key ∈ scannedKeys scan.pages.flatten ↔ scan.found key ≠ none := by
  rw [scannedKeys, List.mem_toFinset, List.mem_filterMap, Option.ne_none_iff_exists']
  simp only [Scan.found_eq_some_iff]

theorem deletedMark_ne_fingerprintOf : deletedMark ≠ fingerprintOf R x := by
  intro h
  have hhead := congrArg (fun s => s.toList.head?) h
  simp [deletedMark, fingerprintOf, String.toList_append] at hhead

/-- The changes a scan looks at: its items, then the keys it misses. -/
def Scan.offers (R : Runtime) (live : Finset PrimaryKey) (scan : Scan) :
    List (DdbKey × DdbChange) :=
  scan.pages.flatten.filterMap (itemOffer R) ++
    (R.iterate (live \ scannedKeys scan.pages.flatten)).map deleteOffer

theorem Scan.offers_eq (p : DdbPoller) :
    p.offers R (scan.pages.map .ok) = scan.offers R p.knownLiveKeys := by
  rw [DdbPoller.offers, scanResult_map_ok, readItems_map_ok]
  rfl

theorem Scan.mem_itemOffers {offer : DdbKey × DdbChange} :
    offer ∈ scan.pages.flatten.filterMap (itemOffer R) ↔ ∃ key x,
      scan.found key = some x ∧ offer = ((key, fingerprintOf R x), .upsert key x.item) := by
  rw [List.mem_filterMap]
  constructor
  · rintro ⟨x, hx, h⟩
    obtain ⟨key, hkey, rfl⟩ := Option.map_eq_some_iff.mp h
    exact ⟨key, x, Scan.found_eq_some_iff.mpr ⟨hx, hkey⟩, rfl⟩
  · rintro ⟨key, x, h, rfl⟩
    obtain ⟨hx, hkey⟩ := Scan.found_eq_some_iff.mp h
    exact ⟨x, hx, by rw [itemOffer, hkey]; rfl⟩

theorem Scan.mem_deleteOffers {live : Finset PrimaryKey} {offer : DdbKey × DdbChange} :
    offer ∈ (R.iterate (live \ scannedKeys scan.pages.flatten)).map deleteOffer ↔ ∃ key,
      (key ∈ live ∧ scan.found key = none) ∧ offer = ((key, deletedMark), .delete key) := by
  rw [List.mem_map]
  simp only [R.mem_iterate, Finset.mem_sdiff, Scan.mem_scannedKeys, not_not]
  refine exists_congr (fun key => and_congr_right' ?_)
  exact eq_comm

/-- Every key is looked at once. -/
theorem Scan.nodup_offers (live : Finset PrimaryKey) :
    ((scan.offers R live).map (fun offer => offer.2.key)).Nodup := by
  rw [Scan.offers, List.map_append, List.nodup_append']
  refine ⟨?_, ?_, ?_⟩
  · have hdistinct := scan.distinct
    rw [List.Nodup, List.pairwise_map] at hdistinct ⊢
    rw [List.pairwise_filterMap]
    refine hdistinct.imp ?_
    intro item item' hne offer hoffer offer' hoffer' heq
    obtain ⟨key, hkey, rfl⟩ := Option.map_eq_some_iff.mp hoffer
    obtain ⟨key', hkey', rfl⟩ := Option.map_eq_some_iff.mp hoffer'
    obtain rfl : key = key' := heq
    exact hne (hkey.trans hkey'.symm)
  · rw [List.map_map]
    exact (R.nodup_iterate _).map (fun _ _ h => h)
  · intro key hkey hkey'
    obtain ⟨offer, hoffer, rfl⟩ := List.mem_map.mp hkey
    obtain ⟨offer', hoffer', heq⟩ := List.mem_map.mp hkey'
    obtain ⟨k, item, hitem, rfl⟩ := Scan.mem_itemOffers.mp hoffer
    obtain ⟨k', ⟨-, hnone⟩, rfl⟩ := Scan.mem_deleteOffers.mp hoffer'
    obtain rfl : k' = k := heq
    rw [hnone] at hitem
    cases hitem

theorem Scan.nodup_offer_keys (live : Finset PrimaryKey) :
    ((scan.offers R live).map Prod.fst).Nodup := by
  have hkeys := scan.nodup_offers (R := R) live
  have hmap : (scan.offers R live).map (fun offer => offer.2.key) =
      ((scan.offers R live).map Prod.fst).map Prod.fst := by
    rw [List.map_map]
    refine List.map_congr_left ?_
    intro offer hoffer
    rcases List.mem_append.mp hoffer with h | h
    · obtain ⟨key, item, -, rfl⟩ := Scan.mem_itemOffers.mp h
      rfl
    · obtain ⟨key, -, rfl⟩ := Scan.mem_deleteOffers.mp h
      rfl
  rw [hmap] at hkeys
  exact hkeys.of_map _

end scan

section run

variable {R : Runtime} {link : DdbLink} {seen : List Found} {now : SystemTime}
  {key : PrimaryKey}

/-- What the poller remembers of the scans so far. -/
structure Tracks (R : Runtime) (link : DdbLink) (seen : List Found) : Prop where
  matchesLedger : link.Matches
  live : ∀ key, key ∈ link.poller.knownLiveKeys ↔ latest seen key ≠ none
  keys : ∀ key f, (key, f) ∈ link.poller.scheduler.seen ↔
    (∃ earlier ∈ seen, ∃ old, earlier key = some old ∧ fingerprintOf R old = f) ∨
      (f = deletedMark ∧ VanishedBefore key seen)

theorem Tracks.item_seen_iff (h : Tracks R link seen) {x : ScannedItem} :
    (key, fingerprintOf R x) ∈ link.poller.scheduler.seen ↔
      ∃ earlier ∈ seen, ∃ old, earlier key = some old ∧
        fingerprintOf R old = fingerprintOf R x := by
  rw [h.keys]
  exact or_iff_left (fun hmark => deletedMark_ne_fingerprintOf hmark.1.symm)

theorem Tracks.deletion_seen_iff (h : Tracks R link seen) (key : PrimaryKey) :
    (key, deletedMark) ∈ link.poller.scheduler.seen ↔ VanishedBefore key seen := by
  rw [h.keys]
  constructor
  · rintro (⟨_, _, _, _, hmark⟩ | ⟨-, hvanished⟩)
    · exact absurd hmark.symm deletedMark_ne_fingerprintOf
    · exact hvanished
  · exact fun hvanished => Or.inr ⟨rfl, hvanished⟩

/-- The link after a scan. -/
theorem step_scan (R : Runtime) (link : DdbLink) (now : SystemTime) (scan : Scan) :
    (link.step R (Cycle.scan now scan).action).poller.scheduler =
        link.poller.scheduler.offerAll now (scan.offers R link.poller.knownLiveKeys) ∧
      (link.step R (Cycle.scan now scan).action).poller.knownLiveKeys =
        scannedKeys scan.pages.flatten ∧
      (link.step R (Cycle.scan now scan).action).ledger = link.ledger.recordQueued
        link.poller.scheduler (link.poller.scheduler.offerAll now
          (scan.offers R link.poller.knownLiveKeys)) := by
  have hscheduler : (link.poller.discover R now (scan.pages.map .ok)).2.scheduler = _ :=
    DdbPoller.scheduler_discover
  have hlive : (link.poller.discover R now (scan.pages.map .ok)).2.knownLiveKeys = _ :=
    DdbPoller.knownLiveKeys_discover (scanResult_map_ok scan.pages)
  rw [Scan.offers_eq] at hscheduler
  rw [readItems_map_ok] at hlive
  exact ⟨hscheduler, hlive, congrArg (link.ledger.recordQueued link.poller.scheduler) hscheduler⟩

theorem Tracks.scanned (h : Tracks R link seen) (hseen : seen ≠ []) (now : SystemTime)
    (scan : Scan) :
    Tracks R (link.step R (Cycle.scan now scan).action) (scan.found :: seen) := by
  obtain ⟨hscheduler, hlive, -⟩ := step_scan R link now scan
  refine ⟨DdbLink.matches_step h.matchesLedger, ?_, ?_⟩
  · intro key
    rw [hlive]
    exact Scan.mem_scannedKeys
  · intro key f
    obtain ⟨new, -, -, -, -, hkeys⟩ := link.poller.scheduler.offerAll_spec now
      (scan.offers R link.poller.knownLiveKeys)
    have hvanished : VanishedBefore key (scan.found :: seen) ↔
        (latest seen key ≠ none ∧ scan.found key = none) ∨ VanishedBefore key seen := by
      cases seen with
      | nil => exact absurd rfl hseen
      | cons earlier seen => exact Iff.rfl
    rw [hscheduler, hkeys, h.keys, hvanished, List.mem_map]
    simp only [Scan.offers, List.mem_append, or_and_right, exists_or, List.mem_cons,
      exists_eq_left]
    constructor
    · rintro ((hitem | hmark) | hitem | hmark)
      · exact Or.inl (Or.inr hitem)
      · exact Or.inr ⟨hmark.1, Or.inr hmark.2⟩
      · obtain ⟨offer, hoffer, heq⟩ := hitem
        obtain ⟨k, item, hk, rfl⟩ := Scan.mem_itemOffers.mp hoffer
        cases heq
        exact Or.inl (Or.inl ⟨item, hk, rfl⟩)
      · obtain ⟨offer, hoffer, heq⟩ := hmark
        obtain ⟨k, ⟨hk, hnone⟩, rfl⟩ := Scan.mem_deleteOffers.mp hoffer
        cases heq
        exact Or.inr ⟨rfl, Or.inl ⟨(h.live _).mp hk, hnone⟩⟩
    · rintro ((⟨item, hk, rfl⟩ | hitem) | ⟨rfl, ⟨hk, hnone⟩ | hmark⟩)
      · exact Or.inr (Or.inl ⟨_, Scan.mem_itemOffers.mpr ⟨key, item, hk, rfl⟩, rfl⟩)
      · exact Or.inl (Or.inl hitem)
      · exact Or.inr (Or.inr ⟨_, Scan.mem_deleteOffers.mpr
          ⟨key, ⟨(h.live _).mpr hk, hnone⟩, rfl⟩, rfl⟩)
      · exact Or.inl (Or.inr ⟨rfl, hmark⟩)

theorem Tracks.applyDue (h : Tracks R link seen) (now : SystemTime) (fate : DdbKey → Fate) :
    Tracks R (link.step R (Cycle.applyDue now fate).action) seen := by
  refine ⟨DdbLink.matches_step h.matchesLedger, h.live, ?_⟩
  intro key f
  rw [← h.keys]
  have hseen : (link.poller.scheduler.drainDue now).2.seen = _ := LagScheduler.seen_drainDue rfl
  exact Finset.ext_iff.mp hseen _

theorem Tracks.setLagPolicy (h : Tracks R link seen) (policy : LagPolicy) :
    Tracks R (link.step R (Cycle.setLagPolicy policy).action) seen :=
  ⟨DdbLink.matches_step h.matchesLedger, h.live, h.keys⟩

theorem tracks_new (initialLag : LagPolicy) (target : Table) :
    Tracks R (.new initialLag target) [fun _ => none] := by
  refine ⟨DdbLink.matches_new initialLag target, ?_, ?_⟩
  · intro key
    simp [DdbLink.new, DdbPoller.new, latest]
  · intro key f
    simp [DdbLink.new, DdbPoller.new, LagScheduler.new, LagScheduler.seen, VanishedBefore]

/-- The changes queued so far, in queue order. -/
def queuedChanges (link : DdbLink) : List DdbChange := link.ledger.queued.map Discovered.event

/-- The queued changes, replayed from nothing, give the table as last scanned. -/
def Notices (link : DdbLink) (seen : List Found) : Prop :=
  replay (fun _ => none) (queuedChanges link) = (latest seen).contents

/-- A scan queues the changes that were never queued before. -/
theorem queuedChanges_scan (R : Runtime) (link : DdbLink) (now : SystemTime) (scan : Scan) :
    queuedChanges (link.step R (Cycle.scan now scan).action) = queuedChanges link ++
      ((scan.offers R link.poller.knownLiveKeys).filter
        (fun offer => offer.1 ∉ link.poller.scheduler.seen)).map Prod.snd := by
  obtain ⟨-, -, hledger⟩ := step_scan R link now scan
  have hpending := LagScheduler.offerAll_pending (scan.nodup_offer_keys (R := R)
    link.poller.knownLiveKeys) link.poller.scheduler now
  rw [queuedChanges, hledger, Ledger.recordQueued, hpending, List.drop_left, List.map_append,
    List.map_map]
  rfl

/-- Of the changes looked at, those let through take effect. -/
theorem replay_filter (contents : Contents) {offers : List (DdbKey × DdbChange)}
    {p : DdbKey × DdbChange → Bool} {offer : DdbKey × DdbChange}
    (hnodup : (offers.map (fun offer => offer.2.key)).Nodup) (hoffer : offer ∈ offers) :
    replay contents ((offers.filter p).map Prod.snd) offer.2.key =
      if p offer then offer.2.value else contents offer.2.key := by
  have hfilter : (((offers.filter p).map Prod.snd).map DdbChange.key).Nodup := by
    rw [List.map_map]
    exact hnodup.sublist (List.filter_sublist.map _)
  split
  · next hp =>
    exact replay_of_mem hfilter (List.mem_map_of_mem (List.mem_filter.mpr ⟨hoffer, hp⟩))
  · next hp =>
    refine replay_of_notMem ?_
    rw [List.map_map]
    intro hmem
    obtain ⟨other, hother, hkey⟩ := List.mem_map.mp hmem
    obtain ⟨hother, hpother⟩ := List.mem_filter.mp hother
    obtain rfl := List.inj_on_of_nodup_map hnodup hother hoffer hkey
    exact hp hpother

/-- A scan keeps the replay right exactly when what it finds changed was never queued. -/
theorem notices_scan_iff (h : Tracks R link seen) (hnotices : Notices link seen)
    (now : SystemTime) (scan : Scan) :
    Notices (link.step R (Cycle.scan now scan).action) (scan.found :: seen) ↔
      Unrevisited R seen scan.found := by
  have hnodup := scan.nodup_offers (R := R) link.poller.knownLiveKeys
  rw [Notices, queuedChanges_scan, replay_append, show replay _ _ = _ from hnotices, funext_iff]
  refine forall_congr' (fun key => ?_)
  change _ = Found.contents scan.found key ↔ _
  cases hfound : scan.found key with
  | some x =>
    have hcontents : Found.contents scan.found key = some x.item := by
      rw [Found.contents, hfound]
      rfl
    have hoffer : ((key, fingerprintOf R x), .upsert key x.item) ∈
        scan.offers R link.poller.knownLiveKeys :=
      List.mem_append_left _ (Scan.mem_itemOffers.mpr ⟨key, x, hfound, rfl⟩)
    have hreplay := replay_filter (latest seen).contents
      (p := fun offer => offer.1 ∉ link.poller.scheduler.seen) hnodup hoffer
    rw [hcontents]
    refine (Eq.congr_left hreplay).trans ?_
    have hnew : (key, fingerprintOf R x) ∉ link.poller.scheduler.seen ↔
        ∀ earlier ∈ seen, ∀ old, earlier key = some old →
          fingerprintOf R old ≠ fingerprintOf R x := by
      rw [h.item_seen_iff]
      push Not
      rfl
    simp only [decide_eq_true_eq, ← hnew]
    by_cases hfresh : (key, fingerprintOf R x) ∉ link.poller.scheduler.seen
    · simp [hfresh, DdbChange.value]
    · simp [hfresh, DdbChange.key, eq_comm]
  | none =>
    have hcontents : Found.contents scan.found key = none :=
      Found.contents_eq_none_iff.mpr hfound
    rw [hcontents]
    by_cases hlive : latest seen key = none
    · have hgone := Found.contents_eq_none_iff.mpr hlive
      have habsent : key ∉ (((scan.offers R link.poller.knownLiveKeys).filter
          (fun offer => offer.1 ∉ link.poller.scheduler.seen)).map Prod.snd).map
            DdbChange.key := by
        rw [List.map_map]
        intro hmem
        obtain ⟨offer, hoffer, hkey⟩ := List.mem_map.mp hmem
        rcases List.mem_append.mp (List.mem_filter.mp hoffer).1 with hitem | hdelete
        · obtain ⟨k, x, hk, rfl⟩ := Scan.mem_itemOffers.mp hitem
          obtain rfl : k = key := hkey
          rw [hfound] at hk
          cases hk
        · obtain ⟨k, ⟨hk, -⟩, rfl⟩ := Scan.mem_deleteOffers.mp hdelete
          obtain rfl : k = key := hkey
          exact (h.live k).mp hk hlive
      rw [replay_of_notMem habsent, hgone]
      simp
    · have hgone : (latest seen).contents key ≠ none :=
        fun hnone => hlive (Found.contents_eq_none_iff.mp hnone)
      have hoffer : ((key, deletedMark), .delete key) ∈
          scan.offers R link.poller.knownLiveKeys :=
        List.mem_append_right _ (Scan.mem_deleteOffers.mpr
          ⟨key, ⟨(h.live key).mpr hlive, hfound⟩, rfl⟩)
      have hreplay := replay_filter (latest seen).contents
        (p := fun offer => offer.1 ∉ link.poller.scheduler.seen) hnodup hoffer
      refine (Eq.congr_left hreplay).trans ?_
      have hchanged : none ≠ (latest seen).contents key := Ne.symm hgone
      have hmark := h.deletion_seen_iff key
      by_cases hvanished : VanishedBefore key seen
      · simpa [hvanished, hmark.mpr hvanished, DdbChange.key, hchanged] using hgone
      · simp [hvanished, mt hmark.mp hvanished, DdbChange.value]

theorem history_concat (cycles : List Cycle) (c : Cycle) :
    history (cycles ++ [c]) =
      match c with
      | .scan _ scan => scan.found :: history cycles
      | _ => history cycles := by
  rw [history, List.foldl_append]
  rfl

theorem history_ne_nil (cycles : List Cycle) : history cycles ≠ [] := by
  induction cycles using List.reverseRecOn with
  | nil => exact List.cons_ne_nil _ _
  | append_singleton cycles c ih =>
    rw [history_concat]
    cases c with
    | scan now scan => exact List.cons_ne_nil _ _
    | applyDue now fate => exact ih
    | setLagPolicy policy => exact ih

/-- A new link after some cycles. -/
def observe (R : Runtime) (initialLag : LagPolicy) (target : Table) (cycles : List Cycle) :
    DdbLink :=
  (DdbLink.new initialLag target).run R (cycles.map Cycle.action)

variable {initialLag : LagPolicy} {target : Table}

theorem observe_concat (cycles : List Cycle) (c : Cycle) :
    observe R initialLag target (cycles ++ [c]) =
      (observe R initialLag target cycles).step R c.action := by
  rw [observe, List.map_append, DdbLink.run, List.foldl_append]
  rfl

theorem tracks_observe (cycles : List Cycle) :
    Tracks R (observe R initialLag target cycles) (history cycles) := by
  induction cycles using List.reverseRecOn with
  | nil => exact tracks_new initialLag target
  | append_singleton cycles c ih =>
    rw [observe_concat, history_concat]
    cases c with
    | scan now scan => exact ih.scanned (history_ne_nil cycles) now scan
    | applyDue now fate => exact ih.applyDue now fate
    | setLagPolicy policy => exact ih.setLagPolicy policy

/-- At every moment of every run the queued changes replay to the table as last scanned exactly
when no scan of the run finds a changed key in a state it was found in before. -/
theorem discover_notices_iff (R : Runtime) (initialLag : LagPolicy) (target : Table)
    (cycles : List Cycle) :
    (∀ done, done <+: cycles →
      Notices (observe R initialLag target done) (history done)) ↔
    ∀ done now scan, done ++ [.scan now scan] <+: cycles →
      Unrevisited R (history done) scan.found := by
  induction cycles using List.reverseRecOn with
  | nil =>
    constructor
    · intro _ done now scan hpre
      exact absurd (List.prefix_nil.mp hpre) (by simp)
    · intro _ done hdone
      rw [List.prefix_nil.mp hdone]
      rfl
  | append_singleton cycles c ih =>
    have htracks : Tracks R (observe R initialLag target cycles) (history cycles) :=
      tracks_observe cycles
    have hstep (hnotices : Notices (observe R initialLag target cycles) (history cycles)) :
        Notices (observe R initialLag target (cycles ++ [c])) (history (cycles ++ [c])) ↔
          ∀ now scan, c = .scan now scan → Unrevisited R (history cycles) scan.found := by
      rw [observe_concat, history_concat]
      cases c with
      | scan now scan =>
        refine (notices_scan_iff htracks hnotices now scan).trans ?_
        constructor
        · intro h now' scan' heq
          cases heq
          exact h
        · exact fun h => h now scan rfl
      | applyDue now fate =>
        exact iff_of_true hnotices (fun _ _ heq => by cases heq)
      | setLagPolicy policy =>
        exact iff_of_true hnotices (fun _ _ heq => by cases heq)
    constructor
    · intro h done now scan hpre
      rcases List.prefix_concat_iff.mp hpre with heq | hpre
      · obtain ⟨rfl, hc⟩ := List.append_inj' heq rfl
        obtain rfl := (List.cons.inj hc).1
        have hnotices := h done (List.prefix_append _ _)
        exact (hstep hnotices).mp (h _ (List.prefix_refl _)) now scan rfl
      · exact ih.mp (fun d hd => h d (hd.trans (List.prefix_append _ _))) done now scan hpre
    · intro h done hdone
      have hbefore := ih.mpr (fun d now scan hpre =>
        h d now scan (hpre.trans (List.prefix_append _ _)))
      rcases List.prefix_concat_iff.mp hdone with rfl | hdone
      · refine (hstep (hbefore cycles (List.prefix_refl _))).mpr ?_
        rintro now scan rfl
        exact h cycles now scan (List.prefix_refl _)
      · exact hbefore done hdone

end run

/-- A scan of a table with at most one item. -/
def scanOf (items : List ScannedItem) (hkeyed : ∀ x ∈ items, x.key.isSome)
    (hone : items.length ≤ 1) : Scan where
  pages := [items]
  keyed := by
    rw [List.flatten_singleton]
    exact hkeyed
  distinct := by
    rw [List.flatten_singleton]
    match items, hone with
    | [], _ => exact List.nodup_nil
    | [item], _ => exact List.nodup_singleton _

/-- The table as scanned with the value `v` of one item. -/
def sampleScan (v : String) : Scan :=
  scanOf [sampleScanned ⟨"log#a", "lease"⟩ v] (by
    intro x hx
    rw [List.mem_singleton.mp hx]
    rfl) (le_refl _)

/-- The text in the attribute `v`. -/
def sampleValue (item : Option Attributes) : Option String :=
  match item.bind (fun item => item.get? "v") with
  | some (.s text) => some text
  | _ => none

/-- An item changes and changes back. -/
def changedBack : List Cycle :=
  [.scan ⟨0⟩ (sampleScan "1"), .applyDue ⟨1⟩ (fun _ => .delivered), .scan ⟨2⟩ (sampleScan "2"),
    .applyDue ⟨3⟩ (fun _ => .delivered), .scan ⟨4⟩ (sampleScan "1"),
    .applyDue ⟨5⟩ (fun _ => .delivered)]

/-- The return to the earlier content is not queued: the replay keeps the second value. -/
theorem changed_back_unnoticed :
    ¬ Notices (observe plainRuntime .immediate .empty changedBack) (history changedBack) := by
  intro h
  have hkey := congrFun h ⟨"log#a", "lease"⟩
  exact absurd (congrArg sampleValue hkey) (by decide +kernel)

end DevReplicator
