import MtcCa.Replicator.LastWriter

/-! Two links that replicate two tables into each other. -/
namespace DevReplicator

open Cloud Cloud.Dynamo

/-- One turn of a link: a full scan, then a pass over what is due, every request answered. -/
def DdbPoller.turn (R : Runtime) (p : DdbPoller) (now applyNow : SystemTime) (scan : Scan)
    (target : Table) : ApplySummary × DdbPoller × Table :=
  let r :=
    (p.discover R now (scan.pages.map .ok)).2.applyDue R applyNow (fun _ => .delivered) target
  (r.1, r.2.2.1, r.2.2.2)

structure TwoWay where
  tableA : Table
  tableB : Table
  linkAB : DdbPoller
  linkBA : DdbPoller

/-- The clock readings and the scans of one round: `A` to `B`, then `B` to `A`. -/
structure Round where
  discoverAB : SystemTime
  applyAB : SystemTime
  discoverBA : SystemTime
  applyBA : SystemTime
  scanA : Scan
  scanB : Scan

namespace TwoWay

variable (R : Runtime) (s : TwoWay) (r : Round)

def turnAB : ApplySummary × DdbPoller × Table :=
  s.linkAB.turn R r.discoverAB r.applyAB r.scanA s.tableB

def turnBA : ApplySummary × DdbPoller × Table :=
  s.linkBA.turn R r.discoverBA r.applyBA r.scanB s.tableA

def round : TwoWay where
  tableA := (s.turnBA R r).2.2
  tableB := (s.turnAB R r).2.2
  linkAB := (s.turnAB R r).2.1
  linkBA := (s.turnBA R r).2.1

/-- The writes a round applies. -/
def written : ℕ := (s.turnAB R r).1.applied + (s.turnBA R r).1.applied

end TwoWay

/-- Both scans read the whole table they scan, as it stands then. -/
structure Round.Reads (R : Runtime) (r : Round) (s : TwoWay) : Prop where
  scanA : r.scanA.contents = s.tableA.get?
  scanB : r.scanB.contents = (s.turnAB R r).2.2.get?

/-- The scan renders every item as `print` does: it iterates the maps of equal items in the same
order. -/
def Scan.Renders (R : Runtime) (print : Attributes → String) (scan : Scan) : Prop :=
  ∀ x ∈ scan.pages.flatten, fingerprintOf R x = print x.item

/-- Both scans of the round render equal items alike. -/
def Round.Renders (R : Runtime) (print : Attributes → String) (r : Round) : Prop :=
  r.scanA.Renders R print ∧ r.scanB.Renders R print

/-- Rounds without other writers, over a strictly increasing clock. -/
structure TwoWayRun (R : Runtime) where
  states : ℕ → TwoWay
  rounds : ℕ → Round
  next : ∀ n, states (n + 1) = (states n).round R (rounds n)
  reads : ∀ n, (rounds n).Reads R (states n)
  clock : ∀ n, (rounds n).discoverAB < (rounds n).applyAB ∧
    (rounds n).applyAB < (rounds n).discoverBA ∧ (rounds n).discoverBA < (rounds n).applyBA ∧
      (rounds n).applyBA < (rounds (n + 1)).discoverAB

/-- A link without lag and with nothing waiting. -/
def DdbPoller.Idle (p : DdbPoller) : Prop :=
  p.scheduler.policy = .immediate ∧ p.scheduler.pending = []

/-- The tables differ in nothing but replication timestamps. -/
def TwoWay.SameContent (s : TwoWay) : Prop := ∀ key,
  (s.tableA.get? key).map (·.erase tsAttr) = (s.tableB.get? key).map (·.erase tsAttr)

/-- The write of a link at `now` would be let through by this item. -/
def Accepts (R : Runtime) (item : Attributes) (now : SystemTime) : Prop :=
  tsConditionHolds R (some item) (Nat.repr (millis now)) = true

/-- The exchange of one key dies out: `A` refuses the first write back, or no link has anything
new that `B` would accept. -/
def Calm (R : Runtime) (print : Attributes → String) (s : TwoWay) (first second : Round)
    (key : PrimaryKey) : Prop :=
  ∀ a b, s.tableA.get? key = some a → s.tableB.get? key = some b →
    ¬ Accepts R a first.applyBA ∨
      ((key, print a) ∈ s.linkAB.scheduler.seen ∨ ¬ Accepts R b first.applyAB) ∧
        ((key, print b) ∈ s.linkBA.scheduler.seen ∨ ¬ Accepts R b second.applyAB)

section turn

variable {R : Runtime} {p : DdbPoller} {now applyNow : SystemTime} {scan : Scan}
  {target : Table} {key : PrimaryKey} {item stored : Attributes} {print : Attributes → String}

/-- Of a list without repeated keys, a key picks out one element. -/
theorem filter_key_eq_singleton {α β : Type*} [DecidableEq β] {f : α → β} {l : List α} {x : α}
    (hnodup : (l.map f).Nodup) (hx : x ∈ l) : l.filter (fun y => f y = f x) = [x] := by
  induction l with
  | nil => cases hx
  | cons y l ih =>
    obtain ⟨hy, hnodup⟩ := List.nodup_cons.mp hnodup
    rcases List.mem_cons.mp hx with rfl | hx
    · rw [List.filter_cons_of_pos (by simp), List.filter_eq_nil_iff.mpr]
      intro z hz heq
      exact hy (of_decide_eq_true heq ▸ List.mem_map_of_mem hz)
    · have hne : f y ≠ f x := fun heq => hy (heq ▸ List.mem_map_of_mem hx)
      rw [List.filter_cons_of_neg (by simpa using hne), ih hnodup hx]

/-- What a turn attempts: the offers whose key was never queued. -/
def DdbPoller.fresh (R : Runtime) (p : DdbPoller) (now : SystemTime) (scan : Scan) :
    List (Discovered DdbKey DdbChange) :=
  ((scan.offers R p.knownLiveKeys).filter (fun offer => offer.1 ∉ p.scheduler.seen)).map
    (LagScheduler.toDiscovered now)

structure TurnSpec (R : Runtime) (p : DdbPoller) (now applyNow : SystemTime) (scan : Scan)
    (target : Table) (r : ApplySummary × DdbPoller × Table) : Prop where
  idle : r.2.1.Idle
  seen : ∀ f, f ∈ r.2.1.scheduler.seen ↔
    f ∈ p.scheduler.seen ∨ f ∈ (scan.offers R p.knownLiveKeys).map Prod.fst
  live : r.2.1.knownLiveKeys = scannedKeys scan.pages.flatten
  summary : r.1 = summarize (applyAll (fun item target =>
    applyOne R applyNow .delivered item.event target) (p.fresh R now scan) target).1
  target : r.2.2 = (applyAll (fun item target =>
    applyOne R applyNow .delivered item.event target) (p.fresh R now scan) target).2

theorem turn_spec (h : p.Idle) :
    TurnSpec R p now applyNow scan target (p.turn R now applyNow scan target) := by
  obtain ⟨hpolicy, hpending⟩ := h
  have hscheduler : (p.discover R now (scan.pages.map .ok)).2.scheduler =
      p.scheduler.offerAll now (scan.offers R p.knownLiveKeys) := by
    rw [DdbPoller.scheduler_discover, Scan.offers_eq]
  have hlive : (p.discover R now (scan.pages.map .ok)).2.knownLiveKeys =
      scannedKeys scan.pages.flatten := by
    rw [DdbPoller.knownLiveKeys_discover (scanResult_map_ok scan.pages), readItems_map_ok]
  obtain ⟨_, -, -, hoffered, -, hseen⟩ :=
    LagScheduler.offerAll_spec p.scheduler now (scan.offers R p.knownLiveKeys)
  have hqueued := LagScheduler.offerAll_pending (scan.nodup_offer_keys (R := R) p.knownLiveKeys)
    p.scheduler now
  rw [hpending, List.nil_append] at hqueued
  obtain ⟨due, scheduler', hdrain⟩ : ∃ due scheduler',
      (p.discover R now (scan.pages.map .ok)).2.scheduler.drainDue applyNow = (due, scheduler') :=
    ⟨_, _, rfl⟩
  have hpolicy' : (p.discover R now (scan.pages.map .ok)).2.scheduler.policy = .immediate := by
    rw [hscheduler, hoffered, hpolicy]
  obtain ⟨hdue, hleft⟩ := LagScheduler.drainDue_immediate hpolicy' hdrain
  obtain ⟨-, -, hpolicy''⟩ := LagScheduler.drainDue_spec hdrain
  have hkeys := LagScheduler.seen_drainDue hdrain
  have hfresh : due = p.fresh R now scan := by
    rw [hdue, hscheduler, hqueued]
    rfl
  have hturn : p.turn R now applyNow scan target =
      (summarize (applyAll (fun item target => applyOne R applyNow .delivered item.event target)
        (p.fresh R now scan) target).1,
        { (p.discover R now (scan.pages.map .ok)).2 with scheduler := scheduler' },
        (applyAll (fun item target => applyOne R applyNow .delivered item.event target)
          (p.fresh R now scan) target).2) := by
    simp only [DdbPoller.turn, DdbPoller.applyDue, hdrain, hfresh]
  rw [hturn]
  refine ⟨⟨hpolicy''.trans hpolicy', hleft⟩, fun f => ?_, hlive, rfl, rfl⟩
  change f ∈ scheduler'.seen ↔ _
  rw [hkeys, hscheduler]
  exact hseen f

/-- Where nothing is fresh, nothing is written. -/
theorem TurnSpec.get?_of_seen {r : ApplySummary × DdbPoller × Table}
    (h : TurnSpec R p now applyNow scan target r)
    (hseen : ∀ offer ∈ scan.offers R p.knownLiveKeys, offer.2.key = key →
      offer.1 ∈ p.scheduler.seen) : r.2.2.get? key = target.get? key := by
  rw [h.target, get?_applyAll]
  have hnone : changesOf (p.fresh R now scan) key = [] := by
    rw [changesOf, List.filter_eq_nil_iff]
    intro c hc hkey
    obtain ⟨d, hd, rfl⟩ := List.mem_map.mp hc
    obtain ⟨offer, hoffer, rfl⟩ := List.mem_map.mp hd
    obtain ⟨hmem, hnew⟩ := List.mem_filter.mp hoffer
    exact of_decide_eq_true hnew (hseen offer hmem (of_decide_eq_true hkey))
  rw [hnone]
  rfl

/-- A fresh offer is written where the target accepts it. -/
theorem TurnSpec.get?_of_fresh {r : ApplySummary × DdbPoller × Table}
    (h : TurnSpec R p now applyNow scan target r) {offer : DdbKey × DdbChange}
    (hoffer : offer ∈ scan.offers R p.knownLiveKeys) (hnew : offer.1 ∉ p.scheduler.seen) :
    r.2.2.get? offer.2.key = writeAt R applyNow (target.get? offer.2.key) offer.2 := by
  rw [h.target, get?_applyAll]
  have hmem : offer.2 ∈ (p.fresh R now scan).map Discovered.event := by
    refine List.mem_map.mpr ⟨LagScheduler.toDiscovered now offer, List.mem_map_of_mem ?_, rfl⟩
    exact List.mem_filter.mpr ⟨hoffer, decide_eq_true hnew⟩
  have hnodup : (((p.fresh R now scan).map Discovered.event).map DdbChange.key).Nodup := by
    rw [DdbPoller.fresh, List.map_map, List.map_map]
    exact (scan.nodup_offers (R := R) p.knownLiveKeys).sublist (List.filter_sublist.map _)
  rw [changesOf, filter_key_eq_singleton hnodup hmem]
  rfl

/-- The offers of a scan at one key. -/
theorem offer_at_key {live : Finset PrimaryKey} {offer : DdbKey × DdbChange}
    (hr : scan.Renders R print) (hoffer : offer ∈ scan.offers R live) (hkey : offer.2.key = key) :
    (∃ item, scan.contents key = some item ∧
      offer = ((key, print item), .upsert key item)) ∨
      key ∈ live ∧ scan.contents key = none ∧ offer = ((key, deletedMark), .delete key) := by
  rcases List.mem_append.mp hoffer with h | h
  · obtain ⟨k, x, hfound, rfl⟩ := Scan.mem_itemOffers.mp h
    obtain rfl : k = key := hkey
    refine .inl ⟨x.item, by rw [Scan.contents, Found.contents, hfound]; rfl, ?_⟩
    rw [hr x (Scan.found_eq_some_iff.mp hfound).1]
  · obtain ⟨k, ⟨hlive, hnone⟩, rfl⟩ := Scan.mem_deleteOffers.mp h
    obtain rfl : k = key := hkey
    exact .inr ⟨hlive, Found.contents_eq_none_iff.mpr hnone, rfl⟩

theorem item_offered {live : Finset PrimaryKey} (hr : scan.Renders R print)
    (h : scan.contents key = some item) :
    ((key, print item), .upsert key item) ∈ scan.offers R live := by
  obtain ⟨x, hfound, rfl⟩ := Option.map_eq_some_iff.mp h
  rw [← hr x (Scan.found_eq_some_iff.mp hfound).1]
  exact List.mem_append_left _ (Scan.mem_itemOffers.mpr ⟨key, x, hfound, rfl⟩)

instance (item : Attributes) (now : SystemTime) : Decidable (Accepts R item now) :=
  inferInstanceAs (Decidable (_ = true))

/-- What a turn leaves of a stored item that it offers to replace. -/
def afterTurn (R : Runtime) (print : Attributes → String) (seen : Finset DdbKey)
    (key : PrimaryKey) (now : SystemTime) (item stored : Attributes) : Attributes :=
  if (key, print item) ∉ seen ∧ Accepts R stored now then stamp now item else stored

variable {r : ApplySummary × DdbPoller × Table}

theorem TurnSpec.get?_some (h : TurnSpec R p now applyNow scan target r)
    (hr : scan.Renders R print) (hitem : scan.contents key = some item)
    (hstored : target.get? key = some stored) :
    r.2.2.get? key = some (afterTurn R print p.scheduler.seen key applyNow item stored) := by
  by_cases hseen : (key, print item) ∈ p.scheduler.seen
  · rw [afterTurn, if_neg (fun hnew => hnew.1 hseen), ← hstored]
    refine h.get?_of_seen (fun offer hoffer hkey => ?_)
    rcases offer_at_key hr hoffer hkey with ⟨item', hitem', rfl⟩ | ⟨-, hnone, -⟩
    · rw [hitem] at hitem'
      cases hitem'
      exact hseen
    · rw [hitem] at hnone
      cases hnone
  · have hwrite := h.get?_of_fresh (item_offered hr hitem) hseen
    refine hwrite.trans ?_
    change writeAt R applyNow (target.get? key) (.upsert key item) = _
    rw [hstored]
    by_cases haccepts : Accepts R stored applyNow
    · have hafter : afterTurn R print p.scheduler.seen key applyNow item stored =
          stamp applyNow item := if_pos ⟨hseen, haccepts⟩
      rw [hafter]
      exact if_pos haccepts
    · have hafter : afterTurn R print p.scheduler.seen key applyNow item stored = stored :=
        if_neg (fun hnew => haccepts hnew.2)
      rw [hafter]
      exact if_neg haccepts

/-- A key that both tables lack stays away. -/
theorem TurnSpec.get?_none (h : TurnSpec R p now applyNow scan target r)
    (hr : scan.Renders R print) (hitem : scan.contents key = none)
    (hstored : target.get? key = none) : r.2.2.get? key = none := by
  by_cases hfresh : key ∈ p.knownLiveKeys ∧ (key, deletedMark) ∉ p.scheduler.seen
  · have hoffer : ((key, deletedMark), DdbChange.delete key) ∈ scan.offers R p.knownLiveKeys :=
      List.mem_append_right _ (Scan.mem_deleteOffers.mpr
        ⟨key, ⟨hfresh.1, Found.contents_eq_none_iff.mp hitem⟩, rfl⟩)
    refine (h.get?_of_fresh hoffer hfresh.2).trans ?_
    change writeAt R applyNow (target.get? key) (.delete key) = none
    rw [hstored]
    rfl
  · refine (h.get?_of_seen (fun offer hoffer hkey => ?_)).trans hstored
    rcases offer_at_key hr hoffer hkey with ⟨item', hitem', -⟩ | ⟨hlive, -, rfl⟩
    · rw [hitem] at hitem'
      cases hitem'
    · by_contra hseen
      exact hfresh ⟨hlive, hseen⟩

theorem TurnSpec.seen_mono (h : TurnSpec R p now applyNow scan target r) {f : DdbKey}
    (hf : f ∈ p.scheduler.seen) : f ∈ r.2.1.scheduler.seen :=
  (h.seen f).mpr (.inl hf)

theorem TurnSpec.seen_item (h : TurnSpec R p now applyNow scan target r)
    (hr : scan.Renders R print) (hitem : scan.contents key = some item) :
    (key, print item) ∈ r.2.1.scheduler.seen :=
  (h.seen _).mpr (.inr (List.mem_map_of_mem (item_offered hr hitem)))

theorem TurnSpec.notMem_live (h : TurnSpec R p now applyNow scan target r)
    (hitem : scan.contents key = none) : key ∉ r.2.1.knownLiveKeys := by
  rw [h.live, Scan.mem_scannedKeys]
  exact fun hne => hne (Found.contents_eq_none_iff.mp hitem)

end turn

section settled

variable {R : Runtime} {s : TwoWay} {r : Round} {key : PrimaryKey} {a b : Attributes}
  {print : Attributes → String}

/-- Neither link has anything new at the key. -/
structure KeySettled (print : Attributes → String) (s : TwoWay) (key : PrimaryKey) : Prop where
  seenA : ∀ a, s.tableA.get? key = some a → (key, print a) ∈ s.linkAB.scheduler.seen
  seenB : ∀ b, s.tableB.get? key = some b → (key, print b) ∈ s.linkBA.scheduler.seen
  goneA : s.tableA.get? key = none → key ∉ s.linkAB.knownLiveKeys
  goneB : s.tableB.get? key = none → key ∉ s.linkBA.knownLiveKeys

/-- Both links without lag and with nothing waiting. -/
def TwoWay.Idle (s : TwoWay) : Prop := s.linkAB.Idle ∧ s.linkBA.Idle

theorem TwoWay.turnAB_spec (h : s.Idle) :
    TurnSpec R s.linkAB r.discoverAB r.applyAB r.scanA s.tableB (s.turnAB R r) :=
  turn_spec h.1

theorem TwoWay.turnBA_spec (h : s.Idle) :
    TurnSpec R s.linkBA r.discoverBA r.applyBA r.scanB s.tableA (s.turnBA R r) :=
  turn_spec h.2

theorem TwoWay.Idle.round (h : s.Idle) : (s.round R r).Idle :=
  ⟨(TwoWay.turnAB_spec h).idle, (TwoWay.turnBA_spec h).idle⟩

/-- With nothing new at a key a turn offers nothing there. -/
theorem offers_seen {p : DdbPoller} {scan : Scan} (hr : scan.Renders R print)
    (hseen : ∀ item, scan.contents key = some item → (key, print item) ∈ p.scheduler.seen)
    (hgone : scan.contents key = none → key ∉ p.knownLiveKeys) :
    ∀ offer ∈ scan.offers R p.knownLiveKeys, offer.2.key = key → offer.1 ∈ p.scheduler.seen := by
  intro offer hoffer hkey
  rcases offer_at_key hr hoffer hkey with ⟨item, hitem, rfl⟩ | ⟨hlive, hnone, -⟩
  · exact hseen item hitem
  · exact absurd hlive (hgone hnone)

theorem KeySettled.offersAB (h : KeySettled print s key) (hreads : r.Reads R s)
    (hr : r.Renders R print) :
    ∀ offer ∈ r.scanA.offers R s.linkAB.knownLiveKeys, offer.2.key = key →
      offer.1 ∈ s.linkAB.scheduler.seen := by
  refine offers_seen hr.1 ?_ ?_
  · rw [hreads.scanA]
    exact h.seenA
  · rw [hreads.scanA]
    exact h.goneA

theorem KeySettled.tableB (h : KeySettled print s key) (hidle : s.Idle) (hreads : r.Reads R s)
    (hr : r.Renders R print) :
    (s.round R r).tableB.get? key = s.tableB.get? key :=
  (TwoWay.turnAB_spec hidle).get?_of_seen (h.offersAB hreads hr)

theorem KeySettled.offersBA (h : KeySettled print s key) (hidle : s.Idle) (hreads : r.Reads R s)
    (hr : r.Renders R print) :
    ∀ offer ∈ r.scanB.offers R s.linkBA.knownLiveKeys, offer.2.key = key →
      offer.1 ∈ s.linkBA.scheduler.seen := by
  have hB : r.scanB.contents key = s.tableB.get? key := by
    rw [hreads.scanB]
    exact h.tableB hidle hreads hr
  refine offers_seen hr.2 ?_ ?_
  · rw [hB]
    exact h.seenB
  · rw [hB]
    exact h.goneB

theorem KeySettled.tableA (h : KeySettled print s key) (hidle : s.Idle) (hreads : r.Reads R s)
    (hr : r.Renders R print) :
    (s.round R r).tableA.get? key = s.tableA.get? key :=
  (TwoWay.turnBA_spec hidle).get?_of_seen (h.offersBA hidle hreads hr)

/-- What has settled stays settled. -/
theorem KeySettled.round (h : KeySettled print s key) (hidle : s.Idle) (hreads : r.Reads R s)
    (hr : r.Renders R print) :
    KeySettled print (s.round R r) key where
  seenA := by
    intro a ha
    rw [h.tableA hidle hreads hr] at ha
    exact (TwoWay.turnAB_spec hidle).seen_mono (h.seenA a ha)
  seenB := by
    intro b hb
    rw [h.tableB hidle hreads hr] at hb
    exact (TwoWay.turnBA_spec hidle).seen_mono (h.seenB b hb)
  goneA := by
    intro hnone
    rw [h.tableA hidle hreads hr, ← hreads.scanA] at hnone
    exact (TwoWay.turnAB_spec hidle).notMem_live hnone
  goneB := by
    intro hnone
    have hB : r.scanB.contents key = none := by
      rw [hreads.scanB]
      exact hnone
    exact (TwoWay.turnBA_spec hidle).notMem_live hB

theorem applied_eq_zero {p : DdbPoller} {now applyNow : SystemTime} {scan : Scan} {target : Table}
    {t : ApplySummary × DdbPoller × Table} (h : TurnSpec R p now applyNow scan target t)
    (hseen : ∀ offer ∈ scan.offers R p.knownLiveKeys, offer.1 ∈ p.scheduler.seen) :
    t.1.applied = 0 := by
  have hfresh : p.fresh R now scan = [] := by
    rw [DdbPoller.fresh, List.map_eq_nil_iff, List.filter_eq_nil_iff]
    intro offer hoffer hnew
    exact of_decide_eq_true hnew (hseen offer hoffer)
  rw [h.summary, hfresh]
  rfl

/-- A settled exchange writes nothing. -/
theorem written_of_settled (h : ∀ key, KeySettled print s key) (hidle : s.Idle)
    (hreads : r.Reads R s) (hr : r.Renders R print) : s.written R r = 0 := by
  have hAB := applied_eq_zero (TwoWay.turnAB_spec (r := r) hidle)
    (fun offer hoffer => (h offer.2.key).offersAB hreads hr offer hoffer rfl)
  have hBA := applied_eq_zero (TwoWay.turnBA_spec (r := r) hidle)
    (fun offer hoffer => (h offer.2.key).offersBA hidle hreads hr offer hoffer rfl)
  rw [TwoWay.written, hAB, hBA]

/-- A round at a key that both tables lack. -/
theorem keySettled_of_absent (hidle : s.Idle) (hreads : r.Reads R s) (hr : r.Renders R print)
    (hA : s.tableA.get? key = none) (hB : s.tableB.get? key = none) :
    KeySettled print (s.round R r) key := by
  have hscanA : r.scanA.contents key = none := by rw [hreads.scanA, hA]
  have hB' : (s.round R r).tableB.get? key = none := 
    (TwoWay.turnAB_spec hidle).get?_none hr.1 hscanA hB
  have hscanB : r.scanB.contents key = none := by
    rw [hreads.scanB]
    exact hB'
  have hA' : (s.round R r).tableA.get? key = none := 
    (TwoWay.turnBA_spec hidle).get?_none hr.2 hscanB hA
  refine ⟨?_, ?_, fun _ => (TwoWay.turnAB_spec hidle).notMem_live hscanA,
    fun _ => (TwoWay.turnBA_spec hidle).notMem_live hscanB⟩
  · intro a ha
    cases hA'.symm.trans ha
  · intro b hb
    cases hB'.symm.trans hb

/-- A round at a key that both tables have. -/
theorem round_present (hidle : s.Idle) (hreads : r.Reads R s) (hr : r.Renders R print)
    (hA : s.tableA.get? key = some a)
    (hB : s.tableB.get? key = some b) : ∃ a' b',
      b' = afterTurn R print s.linkAB.scheduler.seen key r.applyAB a b ∧
      a' = afterTurn R print s.linkBA.scheduler.seen key r.applyBA b' a ∧
      (s.round R r).tableA.get? key = some a' ∧ (s.round R r).tableB.get? key = some b' ∧
      (key, print a) ∈ (s.round R r).linkAB.scheduler.seen ∧
      (key, print b') ∈ (s.round R r).linkBA.scheduler.seen := by
  have hscanA : r.scanA.contents key = some a := by rw [hreads.scanA, hA]
  have hB' := (TwoWay.turnAB_spec (R := R) (r := r) hidle).get?_some hr.1 hscanA hB
  have hscanB : r.scanB.contents key =
      some (afterTurn R print s.linkAB.scheduler.seen key r.applyAB a b) := by
    rw [hreads.scanB]
    exact hB'
  have hA' := (TwoWay.turnBA_spec (R := R) (r := r) hidle).get?_some hr.2 hscanB hA
  exact ⟨_, _, rfl, rfl, hA', hB', (TwoWay.turnAB_spec hidle).seen_item hr.1 hscanA,
    (TwoWay.turnBA_spec hidle).seen_item hr.2 hscanB⟩

theorem keySettled_of_seen (hA : s.tableA.get? key = some a) (hB : s.tableB.get? key = some b)
    (hseenA : (key, print a) ∈ s.linkAB.scheduler.seen)
    (hseenB : (key, print b) ∈ s.linkBA.scheduler.seen) : KeySettled print s key where
  seenA := by
    intro a' ha'
    rw [hA] at ha'
    cases ha'
    exact hseenA
  seenB := by
    intro b' hb'
    rw [hB] at hb'
    cases hb'
    exact hseenB
  goneA := by
    intro hnone
    cases hA.symm.trans hnone
  goneB := by
    intro hnone
    cases hB.symm.trans hnone

theorem afterTurn_of_seen {seen : Finset DdbKey} {now : SystemTime}
    (h : (key, print a) ∈ seen) : afterTurn R print seen key now a b = b :=
  if_neg (fun hnew => hnew.1 h)

theorem afterTurn_of_refused {seen : Finset DdbKey} {now : SystemTime}
    (h : ¬ Accepts R b now) : afterTurn R print seen key now a b = b :=
  if_neg (fun hnew => h hnew.2)

/-- A calm key has settled after two rounds. -/
theorem keySettled_of_calm {r' : Round} (hidle : s.Idle) (hreads : r.Reads R s)
    (hreads' : r'.Reads R (s.round R r)) (hr : r.Renders R print) (hr' : r'.Renders R print)
    (hA : s.tableA.get? key = some a)
    (hB : s.tableB.get? key = some b) (hcalm : Calm R print s r r' key) :
    KeySettled print ((s.round R r).round R r') key := by
  obtain ⟨a₁, b₁, hb₁, ha₁, hA₁, hB₁, hseenA, hseenB⟩ := round_present hidle hreads hr hA hB
  -- a first round that leaves `A` as it was has settled the key
  have hfirst : a₁ = a → KeySettled print ((s.round R r).round R r') key := by
    rintro rfl
    exact (keySettled_of_seen hA₁ hB₁ hseenA hseenB).round hidle.round hreads' hr'
  rcases hcalm a b hA hB with hrefused | ⟨hfirstB, hsecondB⟩
  · exact hfirst (ha₁.trans (afterTurn_of_refused hrefused))
  · have hkeepB : b₁ = b := by
      rcases hfirstB with hseen | hrefused
      · exact hb₁.trans (afterTurn_of_seen hseen)
      · exact hb₁.trans (afterTurn_of_refused hrefused)
    subst hkeepB
    rcases hsecondB with hseen | hrefused
    · exact hfirst (ha₁.trans (afterTurn_of_seen hseen))
    · -- the second round finds the write back refused by `B` and old at `B`
      obtain ⟨a₂, b₂, hb₂, ha₂, hA₂, hB₂, hseenA₂, hseenB₂⟩ :=
        round_present hidle.round hreads' hr' hA₁ hB₁
      obtain rfl := hb₂.trans (afterTurn_of_refused hrefused)
      obtain rfl := ha₂.trans (afterTurn_of_seen hseenB)
      exact keySettled_of_seen hA₂ hB₂ hseenA₂ hseenB₂

end settled

theorem TwoWay.sameContent_of_eq {s : TwoWay} (h : s.tableA = s.tableB) : s.SameContent := by
  intro key
  rw [h]

section run

variable {R : Runtime} {run : TwoWayRun R} {print : Attributes → String}

theorem TwoWayRun.idle (h : (run.states 0).Idle) (n : ℕ) : (run.states n).Idle := by
  induction n with
  | zero => exact h
  | succ n ih =>
    rw [run.next]
    exact ih.round

/-- From the second round on nothing is new anywhere. -/
theorem TwoWayRun.settled (h : (run.states 0).Idle) (hsame : (run.states 0).SameContent)
    (hr : ∀ n, (run.rounds n).Renders R print)
    (hcalm : ∀ key, Calm R print (run.states 0) (run.rounds 0) (run.rounds 1) key) (n : ℕ)
    (key : PrimaryKey) : KeySettled print (run.states (n + 2)) key := by
  induction n with
  | zero =>
    have hreads := run.reads 0
    have hreads' := run.reads 1
    rw [run.next 0] at hreads'
    rw [run.next 1, run.next 0]
    cases hA : (run.states 0).tableA.get? key with
    | none =>
      have hB : (run.states 0).tableB.get? key = none := by
        have hcontent := hsame key
        rwa [hA, Option.map_none, eq_comm, Option.map_eq_none_iff] at hcontent
      exact (keySettled_of_absent h hreads (hr 0) hA hB).round h.round hreads' (hr 1)
    | some a =>
      obtain ⟨b, hB⟩ : ∃ b, (run.states 0).tableB.get? key = some b := by
        have hcontent := hsame key
        rw [hA, Option.map_some, eq_comm, Option.map_eq_some_iff] at hcontent
        obtain ⟨b, hB, -⟩ := hcontent
        exact ⟨b, hB⟩
      exact keySettled_of_calm h hreads hreads' (hr 0) (hr 1) hA hB (hcalm key)
  | succ n ih =>
    rw [run.next (n + 2)]
    exact ih.round (run.idle h (n + 2)) (run.reads (n + 2)) (hr (n + 2))

/-- Two-way replication of equal tables settles after two rounds when its scans render equal items
alike and every key is calm. -/
theorem two_way_settles (run : TwoWayRun R) (h : (run.states 0).Idle)
    (hsame : (run.states 0).SameContent) (hr : ∀ n, (run.rounds n).Renders R print)
    (hcalm : ∀ key, Calm R print (run.states 0) (run.rounds 0) (run.rounds 1) key) :
    ∀ n ≥ 2, (run.states n).written R (run.rounds n) = 0 := by
  intro n hn
  obtain ⟨k, rfl⟩ := Nat.exists_eq_add_of_le' hn
  exact written_of_settled (run.settled h hsame hr hcalm k) (run.idle h (k + 2))
    (run.reads (k + 2)) (hr (k + 2))

end run

section echo

variable {R : Runtime} {now : SystemTime}

theorem applied_le_foldl (attempts : List (Discovered DdbKey DdbChange × Outcome))
    (acc : ApplySummary) : acc.applied ≤
      (attempts.foldl (fun summary a => summary.count a.2) acc).applied := by
  induction attempts generalizing acc with
  | nil => exact le_rfl
  | cons a attempts ih =>
    refine le_trans ?_ (ih (acc.count a.2))
    cases a.2 with
    | applied => exact Nat.le_succ _
    | stale => exact le_rfl
    | failed => exact le_rfl

/-- A pass that applies nothing leaves the target alone. -/
theorem applyAll_unchanged (due : List (Discovered DdbKey DdbChange)) (target : Table)
    (acc : ApplySummary)
    (h : ((applyAll (fun item target => applyOne R now .delivered item.event target) due
      target).1.foldl (fun summary a => summary.count a.2) acc).applied = acc.applied) :
    (applyAll (fun item target => applyOne R now .delivered item.event target) due target).2 =
      target := by
  induction due generalizing target acc with
  | nil => rfl
  | cons d due ih =>
    by_cases haccepted : tsConditionHolds R (target.get? d.event.key) (Nat.repr (millis now)) = true
    · have hone : applyOne R now .delivered d.event target =
          (.applied, d.event.write (tsAttrValue now) target) := by
        simp only [applyOne, haccepted, if_true]
      simp only [applyAll, hone, List.foldl_cons] at h
      have hle := applied_le_foldl (applyAll (fun item target =>
        applyOne R now .delivered item.event target) due
          (d.event.write (tsAttrValue now) target)).1 (acc.count .applied)
      have hcount : (acc.count .applied).applied = acc.applied + 1 := rfl
      omega
    · have hone : applyOne R now .delivered d.event target = (.stale, target) := by
        simp only [applyOne, haccepted, if_false, Bool.false_eq_true]
      simp only [applyAll, hone, List.foldl_cons] at h ⊢
      exact ih target (acc.count .stale) h

theorem TurnSpec.target_of_quiet {p : DdbPoller} {applyNow : SystemTime} {scan : Scan}
    {target : Table} {r : ApplySummary × DdbPoller × Table}
    (h : TurnSpec R p now applyNow scan target r) (hquiet : r.1.applied = 0) : r.2.2 = target := by
  rw [h.summary] at hquiet
  rw [h.target]
  exact applyAll_unchanged _ _ .zero hquiet

/-! Both tables hold one item, stamped alike by an earlier replication, and both links are new:
every write back is a new version to the other link. -/

def echoKey : PrimaryKey := ⟨"log#a", "lease"⟩

/-- The instant `ms` milliseconds after the epoch. -/
def atMillis (ms : ℕ) : SystemTime := ⟨ms * 10 ^ 6⟩

def echoItem (ms : ℕ) : Attributes := stamp (atMillis ms) (sampleItem echoKey "1")

theorem millis_atMillis (ms : ℕ) : millis (atMillis ms) = ms := by
  have hnat : (atMillis ms).nanos.toNat = ms * 10 ^ 6 := by
    change ((ms : ℤ) * 10 ^ 6).toNat = ms * 10 ^ 6
    omega
  rw [millis, hnat, Nat.mul_div_cancel _ (by decide)]

theorem primaryKey_echoItem (ms : ℕ) : primaryKey (echoItem ms) = some echoKey := rfl

theorem toList_echoItem (ms : ℕ) : (echoItem ms).toList =
    [("PK", .s "log#a"), ("SK", .s "lease"), (tsAttr, .n (Nat.repr (millis (atMillis ms)))),
      ("v", .s "1")] := rfl

/-- The rendering of an item in alphabetical order. -/
def echoPrint (item : Attributes) : String := fingerprintOf plainRuntime ⟨item, alphabetical⟩

theorem echoPrint_echoItem (ms : ℕ) : echoPrint (echoItem ms) =
    "\x7bPK: log#a, SK: lease, _dev_replicator_ts: " ++ Nat.repr ms ++ ", v: 1\x7d" := by
  rw [echoPrint, fingerprintOf, toList_echoItem, millis_atMillis]
  simp only [List.map_cons, List.map_nil, plainRuntime, plainValue, String.intercalate_cons_cons,
    String.intercalate_singleton, tsAttr]
  apply String.toList_injective
  simp [String.toList_append]

theorem echoItem_injective {m n : ℕ}
    (h : echoPrint (echoItem m) = echoPrint (echoItem n)) :
    m = n := by
  rw [echoPrint_echoItem, echoPrint_echoItem] at h
  have hrepr : Nat.repr m = Nat.repr n := by
    have hlist := congrArg String.toList h
    simp only [String.toList_append] at hlist
    exact String.toList_injective
      (List.append_cancel_left (List.append_cancel_right hlist))
  have hnumeral := congrArg numeral hrepr
  rw [DynamoDbReplicatedKv.numeral_repr, DynamoDbReplicatedKv.numeral_repr] at hnumeral
  exact Option.some.inj hnumeral

theorem stamp_echoItem (m n : ℕ) : stamp (atMillis m) (echoItem n) = echoItem m := by
  refine stamp_eq_iff.mpr (fun a ha => ?_)
  rw [echoItem, stamp, FiniteMap.get?_insert_ne ha]

/-- A stamped item lets through what is stamped later. -/
theorem accepts_stamp_iff {item : Attributes} {written : SystemTime} :
    Accepts R (stamp written item) now ↔ millis written < millis now := by
  rw [Accepts, tsConditionHolds, stamp, Option.bind_some, FiniteMap.get?_insert_self]
  exact (iff_of_eq (congrArg (· = true) (R.numberLt_repr _ _))).trans decide_eq_true_iff

theorem accepts_echoItem {m n : ℕ} : Accepts R (echoItem m) (atMillis n) ↔ m < n := by
  rw [echoItem, accepts_stamp_iff, millis_atMillis, millis_atMillis]

theorem echoItem_ne {m n : ℕ} (h : m ≠ n) : echoItem m ≠ echoItem n :=
  fun heq => h (echoItem_injective (congrArg echoPrint heq))

/-- A scan of a table that holds the item. -/
def echoScan (ms : ℕ) : Scan where
  pages := [[⟨echoItem ms, alphabetical⟩]]
  keyed := by
    intro x hx
    obtain rfl := List.mem_singleton.mp hx
    rfl
  distinct := List.nodup_singleton _

def echoTable (ms : ℕ) : Table := FiniteMap.empty.insert echoKey (echoItem ms)

theorem renders_echoScan (ms : ℕ) : (echoScan ms).Renders plainRuntime echoPrint := by
  intro x hx
  rw [List.mem_singleton.mp hx]
  rfl

theorem contents_echoScan (ms : ℕ) : (echoScan ms).contents = (echoTable ms).get? := by
  funext key
  rw [echoTable, FiniteMap.get?_insert, FiniteMap.get?_empty]
  by_cases hkey : key = echoKey
  · subst hkey
    have hfound : (echoScan ms).found echoKey = some ⟨echoItem ms, alphabetical⟩ :=
      Scan.found_eq_some_iff.mpr ⟨List.mem_singleton_self _, primaryKey_echoItem ms⟩
    rw [if_pos rfl, Scan.contents, Found.contents, hfound]
    rfl
  · rw [if_neg hkey, Scan.contents, Found.contents_eq_none_iff]
    by_contra hne
    obtain ⟨x, hx⟩ := Option.ne_none_iff_exists'.mp hne
    obtain ⟨hmem, hprimary⟩ := Scan.found_eq_some_iff.mp hx
    obtain rfl := List.mem_singleton.mp hmem
    exact hkey (Option.some.inj (hprimary.symm.trans (primaryKey_echoItem ms)))

/-- The stamp of the item at `B` before round `n`. -/
def echoB : ℕ → ℕ
  | 0 => 0
  | n + 1 => 4 * n + 2

def echoRound (n : ℕ) : Round where
  discoverAB := atMillis (4 * n + 1)
  applyAB := atMillis (4 * n + 2)
  discoverBA := atMillis (4 * n + 3)
  applyBA := atMillis (4 * n + 4)
  scanA := echoScan (4 * n)
  scanB := echoScan (4 * n + 2)

def echoStates : ℕ → TwoWay
  | 0 => ⟨echoTable 0, echoTable 0, .new .immediate, .new .immediate⟩
  | n + 1 => (echoStates n).round plainRuntime (echoRound n)

/-- Before round `n` both links are about to see a stamp for the first time. -/
structure Echoes (n : ℕ) (s : TwoWay) : Prop where
  idle : s.Idle
  tableA : s.tableA.get? = (echoTable (4 * n)).get?
  tableB : s.tableB.get? = (echoTable (echoB n)).get?
  freshA : ∀ m ≥ n,
    (echoKey, echoPrint (echoItem (4 * m))) ∉ s.linkAB.scheduler.seen
  freshB : ∀ m ≥ n,
    (echoKey, echoPrint (echoItem (4 * m + 2))) ∉ s.linkBA.scheduler.seen

theorem get?_echoTable (ms : ℕ) (key : PrimaryKey) :
    (echoTable ms).get? key = if key = echoKey then some (echoItem ms) else none := by
  rw [echoTable, FiniteMap.get?_insert, FiniteMap.get?_empty]

/-- A turn that sees a new stamp writes its own. -/
theorem TurnSpec.get?_echo {p : DdbPoller} {now : SystemTime} {target : Table} {seen stored ms : ℕ}
    {r : ApplySummary × DdbPoller × Table}
    (h : TurnSpec plainRuntime p now (atMillis ms) (echoScan seen) target r)
    (htarget : target.get? = (echoTable stored).get?) (hlt : stored < ms)
    (hnew : (echoKey, echoPrint (echoItem seen)) ∉ p.scheduler.seen) :
    r.2.2.get? = (echoTable ms).get? := by
  funext key
  have hstored : target.get? key = (echoTable stored).get? key := congrFun htarget key
  have hseen : (echoScan seen).contents key = (echoTable seen).get? key :=
    congrFun (contents_echoScan seen) key
  rw [get?_echoTable] at hstored hseen ⊢
  by_cases hkey : key = echoKey
  · subst hkey
    rw [if_pos rfl] at hstored hseen ⊢
    rw [h.get?_some (renders_echoScan seen) hseen hstored, afterTurn,
      if_pos ⟨hnew, accepts_echoItem.mpr hlt⟩, stamp_echoItem]
  · rw [if_neg hkey] at hstored hseen ⊢
    exact h.get?_none (renders_echoScan seen) hseen hstored

theorem TurnSpec.notMem_echo {p : DdbPoller} {now applyNow : SystemTime} {target : Table}
    {seen ms : ℕ} {r : ApplySummary × DdbPoller × Table}
    (h : TurnSpec plainRuntime p now applyNow (echoScan seen) target r) (hne : ms ≠ seen)
    (hnew : (echoKey, echoPrint (echoItem ms)) ∉ p.scheduler.seen) :
    (echoKey, echoPrint (echoItem ms)) ∉ r.2.1.scheduler.seen := by
  intro hmem
  rcases (h.seen _).mp hmem with hmem | hmem
  · exact hnew hmem
  · obtain ⟨offer, hoffer, hfirst⟩ := List.mem_map.mp hmem
    rcases offer_at_key (renders_echoScan seen) hoffer rfl with ⟨item, hitem, heq⟩ | ⟨-, -, heq⟩
    · rw [heq] at hfirst
      obtain ⟨hkey, hprint⟩ := Prod.mk.inj hfirst
      rw [hkey, contents_echoScan, get?_echoTable, if_pos rfl] at hitem
      cases hitem
      exact hne (echoItem_injective hprint.symm)
    · rw [heq] at hfirst
      exact deletedMark_ne_fingerprintOf (Prod.mk.inj hfirst).2

theorem Echoes.specAB {n : ℕ} {s : TwoWay} (h : Echoes n s) :
    TurnSpec plainRuntime s.linkAB (atMillis (4 * n + 1)) (atMillis (4 * n + 2)) (echoScan (4 * n))
      s.tableB (s.turnAB plainRuntime (echoRound n)) :=
  TwoWay.turnAB_spec (r := echoRound n) h.idle

theorem Echoes.specBA {n : ℕ} {s : TwoWay} (h : Echoes n s) :
    TurnSpec plainRuntime s.linkBA (atMillis (4 * n + 3)) (atMillis (4 * n + 4))
      (echoScan (4 * n + 2)) s.tableA (s.turnBA plainRuntime (echoRound n)) :=
  TwoWay.turnBA_spec (r := echoRound n) h.idle

theorem Echoes.turnAB {n : ℕ} {s : TwoWay} (h : Echoes n s) :
    (s.turnAB plainRuntime (echoRound n)).2.2.get? = (echoTable (4 * n + 2)).get? := by
  refine h.specAB.get?_echo h.tableB ?_ (h.freshA n le_rfl)
  cases n with
  | zero => decide
  | succ n =>
    rw [echoB]
    omega

theorem Echoes.turnBA {n : ℕ} {s : TwoWay} (h : Echoes n s) :
    (s.turnBA plainRuntime (echoRound n)).2.2.get? = (echoTable (4 * n + 4)).get? :=
  h.specBA.get?_echo h.tableA (by omega) (h.freshB n le_rfl)

theorem Echoes.reads {n : ℕ} {s : TwoWay} (h : Echoes n s) :
    (echoRound n).Reads plainRuntime s where
  scanA := (contents_echoScan _).trans h.tableA.symm
  scanB := (contents_echoScan _).trans h.turnAB.symm

/-- Every round hands the echo on. -/
theorem Echoes.round {n : ℕ} {s : TwoWay} (h : Echoes n s) :
    Echoes (n + 1) (s.round plainRuntime (echoRound n)) where
  idle := h.idle.round
  tableA := h.turnBA
  tableB := h.turnAB
  freshA := by
    intro m hm
    exact h.specAB.notMem_echo (by omega) (h.freshA m (by omega))
  freshB := by
    intro m hm
    exact h.specBA.notMem_echo (by omega) (h.freshB m (by omega))

theorem echoes (n : ℕ) : Echoes n (echoStates n) := by
  induction n with
  | zero =>
    refine ⟨⟨⟨rfl, rfl⟩, rfl, rfl⟩, rfl, rfl, ?_, ?_⟩
    · intro m _
      exact Finset.notMem_empty _
    · intro m _
      exact Finset.notMem_empty _
  | succ n ih => exact ih.round

/-- A round of the echo writes. -/
theorem Echoes.written_ne_zero {n : ℕ} {s : TwoWay} (h : Echoes n s) :
    s.written plainRuntime (echoRound n) ≠ 0 := by
  intro hzero
  have hquiet : (s.turnBA plainRuntime (echoRound n)).1.applied = 0 :=
    Nat.eq_zero_of_add_eq_zero_left hzero
  have hsame := h.specBA.target_of_quiet hquiet
  have hitem := congrFun h.turnBA echoKey
  rw [hsame, h.tableA, get?_echoTable, get?_echoTable, if_pos rfl, if_pos rfl] at hitem
  exact echoItem_ne (by omega) (Option.some.inj hitem)

theorem atMillis_lt {m n : ℕ} (h : m < n) : atMillis m < atMillis n := by
  change (m : ℤ) * 10 ^ 6 < (n : ℤ) * 10 ^ 6
  omega

def echoRun : TwoWayRun plainRuntime where
  states := echoStates
  rounds := echoRound
  next _ := rfl
  reads n := (echoes n).reads
  clock n := ⟨atMillis_lt (by omega), atMillis_lt (by omega), atMillis_lt (by omega),
    atMillis_lt (by omega)⟩

/-- Two new links between equal tables keep writing: every round applies a write. -/
theorem two_way_echo : ¬ ∀ run : TwoWayRun plainRuntime, (run.states 0).Idle →
    (run.states 0).SameContent →
      ∃ N, ∀ n ≥ N, (run.states n).written plainRuntime (run.rounds n) = 0 := by
  intro h
  obtain ⟨N, hN⟩ := h echoRun (echoes 0).idle (TwoWay.sameContent_of_eq rfl)
  exact (echoes N).written_ne_zero (hN N le_rfl)

/-! The same tables, stamped later than the first round writes: both first writes are refused. -/

def steadyRound (n : ℕ) : Round where
  discoverAB := atMillis (4 * n + 1)
  applyAB := atMillis (4 * n + 2)
  discoverBA := atMillis (4 * n + 3)
  applyBA := atMillis (4 * n + 4)
  scanA := echoScan 9
  scanB := echoScan 9

def steadyStates : ℕ → TwoWay
  | 0 => ⟨echoTable 9, echoTable 9, .new .immediate, .new .immediate⟩
  | n + 1 => (steadyStates n).round plainRuntime (steadyRound n)

/-- After the first round both links have seen the item. -/
structure Steady (n : ℕ) (s : TwoWay) : Prop where
  idle : s.Idle
  tableA : s.tableA.get? = (echoTable 9).get?
  tableB : s.tableB.get? = (echoTable 9).get?
  seenAB : n = 0 ∨ (echoKey, echoPrint (echoItem 9)) ∈ s.linkAB.scheduler.seen
  seenBA : n = 0 ∨ (echoKey, echoPrint (echoItem 9)) ∈ s.linkBA.scheduler.seen

/-- A turn that sees nothing new, or is refused, leaves the table as it was. -/
theorem TurnSpec.get?_steady {p : DdbPoller} {now : SystemTime} {target : Table} {n ms : ℕ}
    {r : ApplySummary × DdbPoller × Table}
    (h : TurnSpec plainRuntime p now (atMillis ms) (echoScan 9) target r)
    (htarget : target.get? = (echoTable 9).get?) (hms : n = 0 → ms ≤ 9)
    (hseen : n = 0 ∨ (echoKey, echoPrint (echoItem 9)) ∈ p.scheduler.seen) :
    r.2.2.get? = (echoTable 9).get? := by
  funext key
  have hstored : target.get? key = (echoTable 9).get? key := congrFun htarget key
  have hscan : (echoScan 9).contents key = (echoTable 9).get? key :=
    congrFun (contents_echoScan 9) key
  rw [get?_echoTable] at hstored hscan ⊢
  by_cases hkey : key = echoKey
  · subst hkey
    rw [if_pos rfl] at hstored hscan ⊢
    rw [h.get?_some (renders_echoScan 9) hscan hstored]
    rcases hseen with hzero | hseen
    · rw [afterTurn_of_refused (accepts_echoItem.not.mpr (not_lt.mpr (hms hzero)))]
    · rw [afterTurn_of_seen hseen]
  · rw [if_neg hkey] at hstored hscan ⊢
    exact h.get?_none (renders_echoScan 9) hscan hstored

theorem echoScan_contents_echoKey (ms : ℕ) :
    (echoScan ms).contents echoKey = some (echoItem ms) := by
  rw [contents_echoScan, get?_echoTable, if_pos rfl]

theorem Steady.turnAB {n : ℕ} {s : TwoWay} (h : Steady n s) :
    (s.turnAB plainRuntime (steadyRound n)).2.2.get? = (echoTable 9).get? :=
  TurnSpec.get?_steady (n := n) (TwoWay.turnAB_spec (r := steadyRound n) h.idle) h.tableB
    (by omega) h.seenAB

theorem Steady.turnBA {n : ℕ} {s : TwoWay} (h : Steady n s) :
    (s.turnBA plainRuntime (steadyRound n)).2.2.get? = (echoTable 9).get? :=
  TurnSpec.get?_steady (n := n) (TwoWay.turnBA_spec (r := steadyRound n) h.idle) h.tableA
    (by omega) h.seenBA

theorem Steady.reads {n : ℕ} {s : TwoWay} (h : Steady n s) :
    (steadyRound n).Reads plainRuntime s where
  scanA := (contents_echoScan _).trans h.tableA.symm
  scanB := (contents_echoScan _).trans h.turnAB.symm

theorem steady (n : ℕ) : Steady n (steadyStates n) := by
  induction n with
  | zero => exact ⟨⟨⟨rfl, rfl⟩, rfl, rfl⟩, rfl, rfl, .inl rfl, .inl rfl⟩
  | succ n ih =>
    refine ⟨ih.idle.round, ih.turnBA, ih.turnAB, .inr ?_, .inr ?_⟩
    · exact (TwoWay.turnAB_spec (r := steadyRound n) ih.idle).seen_item
        (renders_echoScan 9) (echoScan_contents_echoKey 9)
    · exact (TwoWay.turnBA_spec (r := steadyRound n) ih.idle).seen_item
        (renders_echoScan 9) (echoScan_contents_echoKey 9)

def steadyRun : TwoWayRun plainRuntime where
  states := steadyStates
  rounds := steadyRound
  next _ := rfl
  reads n := (steady n).reads
  clock n := ⟨atMillis_lt (by omega), atMillis_lt (by omega), atMillis_lt (by omega),
    atMillis_lt (by omega)⟩

theorem two_way_settles_steady :
    (steadyRun.states 0).SameContent ∧
      ∀ n ≥ 2, (steadyRun.states n).written plainRuntime (steadyRun.rounds n) = 0 := by
  refine ⟨TwoWay.sameContent_of_eq rfl,
    two_way_settles steadyRun (steady 0).idle (TwoWay.sameContent_of_eq rfl)
      (fun _ => ⟨renders_echoScan 9, renders_echoScan 9⟩) ?_⟩
  intro key a b hA _
  left
  have hitem := (congrFun (steady 0).tableA key).symm.trans hA
  rw [get?_echoTable] at hitem
  split at hitem
  · cases hitem
    exact accepts_echoItem.not.mpr (by decide)
  · cases hitem

end echo

end DevReplicator
