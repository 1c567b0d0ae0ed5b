import MtcCa.Replicator.Lag
import MtcCa.Cloud.DynamoValues

/-! The DynamoDB poller: scan-diff discovery and last-writer-wins writes
(`crates/dev-replicator/src/ddb.rs`). -/
namespace DevReplicator

open Cloud Cloud.Dynamo

/-- The attribute that carries the replication timestamp. -/
def tsAttr : String := "_dev_replicator_ts"

/-- The orders in which the hash maps inside one item are iterated, by the attribute names that
lead to each. They are drawn anew for every item that a scan returns. -/
structure HashOrder where
  iterate : List String → Finset String → List String
  nodup_iterate : ∀ path keys, (iterate path keys).Nodup
  mem_iterate : ∀ path keys key, key ∈ iterate path keys ↔ key ∈ keys

/-- An item as one scan returned it. -/
structure ScannedItem where
  item : Attributes
  order : HashOrder

/-- What the runtime and the service decide: how strings and values are rendered for debugging,
in which order a hash set is iterated, and how numbers compare. A value that stands at a path of
attribute names is rendered in the orders of the maps it contains. -/
structure Runtime where
  debugString : String → String
  debugValue : HashOrder → List String → AttributeValue → String
  iterate : Finset PrimaryKey → List PrimaryKey
  nodup_iterate : ∀ keys, (iterate keys).Nodup
  mem_iterate : ∀ keys key, key ∈ iterate keys ↔ key ∈ keys
  numberLt : String → String → Bool
  numberLt_repr : ∀ m n, numberLt (Nat.repr m) (Nat.repr n) = decide (m < n)

/-- Deduplication key: the item's key and a fingerprint of its content. -/
abbrev DdbKey := PrimaryKey × String

inductive DdbChange where
  | upsert (key : PrimaryKey) (item : Attributes)
  | delete (key : PrimaryKey)

/-- The fingerprint slot of a deletion. -/
def deletedMark : String := "\x00deleted"

/-- Whether a request reaches the target and its answer comes back. -/
inductive Fate where
  | delivered
  | dropped
  | answerLost
deriving DecidableEq

/-- A failed request, by the name of the operation. -/
inductive ReplicatorError where
  | s3 (op : String)
  | ddb (op : String)
  | body
deriving DecidableEq

section poller

variable (R : Runtime)

/-- The debug rendering of the item as a sorted map. Only the attributes of the item are sorted;
the maps below them are not. -/
def fingerprintOf (x : ScannedItem) : String :=
  "\x7b" ++ ", ".intercalate (x.item.toList.map (fun e => R.debugString e.1 ++ ": " ++
    R.debugValue x.order [e.1] e.2)) ++ "\x7d"

/-- The clock reading in milliseconds since the epoch, zero before it. -/
def millis (now : SystemTime) : ℕ := now.nanos.toNat / 10 ^ 6

def tsAttrValue (now : SystemTime) : AttributeValue := .n (Nat.repr (millis now))

structure DdbPoller where
  scheduler : LagScheduler DdbKey DdbChange
  /-- The keys present in the last full scan. -/
  knownLiveKeys : Finset PrimaryKey

namespace DdbPoller

def new (initialLag : LagPolicy) : DdbPoller := ⟨.new initialLag, ∅⟩

def setLagPolicy (p : DdbPoller) (policy : LagPolicy) : DdbPoller :=
  { p with scheduler := p.scheduler.setPolicy policy }

def pendingLen (p : DdbPoller) : ℕ := p.scheduler.pendingLen

def appliedLen (p : DdbPoller) : ℕ := p.scheduler.appliedLen

/-- The locals of a scan. -/
structure ScanState where
  scheduler : LagScheduler DdbKey DdbChange
  currentKeys : Finset PrimaryKey
  newlyQueued : ℕ

/-- Offers a change to the scheduler and counts it if it was queued. -/
def ScanState.offer (st : ScanState) (key : DdbKey) (event : DdbChange) (now : SystemTime) :
    ScanState :=
  let (queued, scheduler) := st.scheduler.discover key event now
  { st with scheduler := scheduler, newlyQueued := st.newlyQueued + queued.toNat }

/-- One scanned item; an item without string keys is skipped. -/
def scanItem (now : SystemTime) (st : ScanState) (x : ScannedItem) : ScanState :=
  match primaryKey x.item with
  | none => st
  | some key =>
    ({ st with currentKeys := insert key st.currentKeys } : ScanState).offer
      (key, fingerprintOf R x) (.upsert key x.item) now

/-- The page loop; a page that fails ends the scan. -/
def scanPages (now : SystemTime) :
    List (Except ReplicatorError (List ScannedItem)) → ScanState →
      Except ReplicatorError Unit × ScanState
  | [], st => (.ok (), st)
  | .error e :: _, st => (.error e, st)
  | .ok items :: pages, st => scanPages now pages (items.foldl (scanItem R now) st)

/-- A key of the last scan that this one did not see. -/
def scanVanished (now : SystemTime) (st : ScanState) (key : PrimaryKey) : ScanState :=
  st.offer (key, deletedMark) (.delete key) now

/-- Discovers the changes between the last scan and this one. -/
def discover (p : DdbPoller) (now : SystemTime)
    (pages : List (Except ReplicatorError (List ScannedItem))) :
    Except ReplicatorError ℕ × DdbPoller :=
  match scanPages R now pages ⟨p.scheduler, ∅, 0⟩ with
  | (.error e, st) => (.error e, { p with scheduler := st.scheduler })
  | (.ok (), st) =>
    let vanished := R.iterate (p.knownLiveKeys \ st.currentKeys)
    let st := vanished.foldl (scanVanished now) st
    (.ok st.newlyQueued, ⟨st.scheduler, st.currentKeys⟩)

end DdbPoller

/-- `attribute_not_exists(#ts) OR #ts < :ts` on the stored item. -/
def tsConditionHolds (stored : Option Attributes) (ts : String) : Bool :=
  match stored.bind (fun item => item.get? tsAttr) with
  | none => true
  | some (.n storedTs) => R.numberLt storedTs ts
  | some _ => false

/-- The table after a write that its condition lets through. -/
def DdbChange.write (ts : AttributeValue) (target : Table) : DdbChange → Table
  | .upsert key item => target.insert key (item.insert tsAttr ts)
  | .delete key => target.erase key

def DdbChange.key : DdbChange → PrimaryKey
  | .upsert key _ => key
  | .delete key => key

/-- One conditional write. The condition is evaluated and the write made in one step. -/
def applyOne (now : SystemTime) (fate : Fate) (event : DdbChange) (target : Table) :
    Outcome × Table :=
  let accepted := tsConditionHolds R (target.get? event.key) (Nat.repr (millis now))
  let written := if accepted then event.write (tsAttrValue now) target else target
  match fate with
  | .dropped => (.failed false, target)
  | .answerLost => (.failed accepted, written)
  | .delivered => (if accepted then .applied else .stale, written)

namespace DdbPoller

/-- Applies what is due at `now`: the summary, what became of each change, the poller and the
target. -/
def applyDue (p : DdbPoller) (now : SystemTime) (fate : DdbKey → Fate) (target : Table) :
    ApplySummary × List (Discovered DdbKey DdbChange × Outcome) × DdbPoller × Table :=
  let (due, scheduler) := p.scheduler.drainDue now
  let (attempts, target) :=
    applyAll (fun item target => applyOne R now (fate item.key) item.event target) due target
  (summarize attempts, attempts, { p with scheduler := scheduler }, target)

end DdbPoller

/-- The items of the pages before a failed one. -/
def readItems : List (Except ReplicatorError (List ScannedItem)) → List ScannedItem
  | .ok items :: pages => items ++ readItems pages
  | _ => []

/-- How a scan ends. -/
def scanResult : List (Except ReplicatorError (List ScannedItem)) → Except ReplicatorError Unit
  | [] => .ok ()
  | .error e :: _ => .error e
  | .ok _ :: pages => scanResult pages

def ScannedItem.key (x : ScannedItem) : Option PrimaryKey := primaryKey x.item

def scannedKeys (items : List ScannedItem) : Finset PrimaryKey :=
  (items.filterMap ScannedItem.key).toFinset

/-- The change a scanned item stands for. -/
def itemOffer (x : ScannedItem) : Option (DdbKey × DdbChange) :=
  x.key.map (fun key => ((key, fingerprintOf R x), .upsert key x.item))

def deleteOffer (key : PrimaryKey) : DdbKey × DdbChange := ((key, deletedMark), .delete key)

namespace DdbPoller

variable {R} {p : DdbPoller} {now : SystemTime} {st : ScanState}
  {pages : List (Except ReplicatorError (List ScannedItem))}

/-- The changes a call of `discover` looks at, in order. -/
def offers (R : Runtime) (p : DdbPoller)
    (pages : List (Except ReplicatorError (List ScannedItem))) : List (DdbKey × DdbChange) :=
  (readItems pages).filterMap (itemOffer R) ++
    match scanResult pages with
    | .error _ => []
    | .ok () => (R.iterate (p.knownLiveKeys \ scannedKeys (readItems pages))).map deleteOffer

theorem foldl_scanItem (R : Runtime) (now : SystemTime) (items : List ScannedItem)
    (st : ScanState) :
    (items.foldl (scanItem R now) st).scheduler =
        st.scheduler.offerAll now (items.filterMap (itemOffer R)) ∧
      (items.foldl (scanItem R now) st).currentKeys = st.currentKeys ∪ scannedKeys items := by
  induction items generalizing st with
  | nil => exact ⟨rfl, (Finset.union_empty _).symm⟩
  | cons item items ih =>
    rw [List.foldl_cons]
    obtain ⟨hscheduler, hkeys⟩ := ih (scanItem R now st item)
    cases hkey : item.key with
    | none =>
      have hoffer : itemOffer R item = none := by rw [itemOffer, hkey]; rfl
      have hstep : scanItem R now st item = st := by
        rw [scanItem, show primaryKey item.item = none from hkey]
      rw [hstep] at hscheduler hkeys ⊢
      rw [List.filterMap_cons_none hoffer, scannedKeys, List.filterMap_cons_none hkey]
      exact ⟨hscheduler, hkeys⟩
    | some key =>
      have hoffer : itemOffer R item =
          some ((key, fingerprintOf R item), .upsert key item.item) := by
        rw [itemOffer, hkey]; rfl
      have hstep : scanItem R now st item = ({ st with
          currentKeys := insert key st.currentKeys } : ScanState).offer
            (key, fingerprintOf R item) (.upsert key item.item) now := by
        rw [scanItem, show primaryKey item.item = some key from hkey]
      rw [List.filterMap_cons_some hoffer, scannedKeys, List.filterMap_cons_some hkey, hscheduler,
        hkeys, hstep]
      refine ⟨rfl, ?_⟩
      rw [List.toFinset_cons, Finset.union_insert, ← Finset.insert_union]
      rfl

theorem foldl_scanVanished (now : SystemTime) (keys : List PrimaryKey) (st : ScanState) :
    (keys.foldl (scanVanished now) st).scheduler =
        st.scheduler.offerAll now (keys.map deleteOffer) ∧
      (keys.foldl (scanVanished now) st).currentKeys = st.currentKeys := by
  induction keys generalizing st with
  | nil => exact ⟨rfl, rfl⟩
  | cons key keys ih => exact ih (scanVanished now st key)

theorem scanPages_spec (R : Runtime) (now : SystemTime)
    (pages : List (Except ReplicatorError (List ScannedItem))) (st : ScanState) :
    (scanPages R now pages st).1 = scanResult pages ∧
      (scanPages R now pages st).2.scheduler =
        st.scheduler.offerAll now ((readItems pages).filterMap (itemOffer R)) ∧
      (scanPages R now pages st).2.currentKeys =
        st.currentKeys ∪ scannedKeys (readItems pages) := by
  induction pages generalizing st with
  | nil => exact ⟨rfl, rfl, (Finset.union_empty _).symm⟩
  | cons page pages ih =>
    cases page with
    | error e => exact ⟨rfl, rfl, (Finset.union_empty _).symm⟩
    | ok items =>
      obtain ⟨hscheduler, hkeys⟩ := foldl_scanItem R now items st
      obtain ⟨hresult, hscheduler', hkeys'⟩ := ih (items.foldl (scanItem R now) st)
      refine ⟨hresult, hscheduler'.trans ?_, hkeys'.trans ?_⟩
      · rw [hscheduler, readItems, List.filterMap_append, LagScheduler.offerAll_append]
      · rw [hkeys, readItems, scannedKeys, scannedKeys, scannedKeys, List.filterMap_append,
          List.toFinset_append, Finset.union_assoc]

/-- Discovering is offering the scanned items and then the keys that vanished. -/
theorem scheduler_discover :
    (p.discover R now pages).2.scheduler = p.scheduler.offerAll now (p.offers R pages) := by
  obtain ⟨hresult, hscheduler, hkeys⟩ := scanPages_spec R now pages
    ⟨p.scheduler, ∅, 0⟩
  unfold discover offers
  generalize scanPages R now pages ⟨p.scheduler, ∅, 0⟩ = scan at *
  obtain ⟨result, st⟩ := scan
  obtain rfl : result = scanResult pages := hresult
  rw [Finset.empty_union] at hkeys
  cases scanResult pages with
  | error e =>
    rw [List.append_nil]
    exact hscheduler
  | ok u =>
    obtain ⟨hvanished, -⟩ := foldl_scanVanished now
      (R.iterate (p.knownLiveKeys \ st.currentKeys)) st
    refine hvanished.trans ?_
    rw [hscheduler, LagScheduler.offerAll_append, hkeys]

/-- After a full scan the known keys are the scanned ones. -/
theorem knownLiveKeys_discover (hok : scanResult pages = .ok ()) :
    (p.discover R now pages).2.knownLiveKeys = scannedKeys (readItems pages) := by
  obtain ⟨hresult, -, hkeys⟩ := scanPages_spec R now pages ⟨p.scheduler, ∅, 0⟩
  unfold discover
  generalize scanPages R now pages ⟨p.scheduler, ∅, 0⟩ = scan at *
  obtain ⟨result, st⟩ := scan
  obtain rfl : result = .ok () := hresult.trans hok
  obtain ⟨-, hvanished⟩ := foldl_scanVanished now
    (R.iterate (p.knownLiveKeys \ st.currentKeys)) st
  exact hvanished.trans (hkeys.trans (Finset.empty_union _))

/-- A failed write request is one that was not delivered. -/
theorem applyOne_failed_iff {fate : Fate} {event : DdbChange} {target : Table} :
    (∃ written, (applyOne R now fate event target).1 = .failed written) ↔ fate ≠ .delivered := by
  cases fate with
  | delivered =>
    simp only [applyOne, ne_eq, not_true_eq_false, iff_false, not_exists]
    intro written
    split <;> simp
  | dropped => simp [applyOne]
  | answerLost => simp [applyOne]

end DdbPoller

end poller

/-- The order of the alphabet. -/
def alphabetical : HashOrder where
  iterate _ keys := FiniteMap.ascending keys
  nodup_iterate _ keys := by
    rw [FiniteMap.ascending_eq_sort]
    exact Finset.sort_nodup ..
  mem_iterate _ keys key := by rw [FiniteMap.ascending_eq_sort, Finset.mem_sort]

/-- A rendering of strings, numbers and maps. -/
def plainValue (order : HashOrder) (path : List String) : AttributeValue → String
  | .n s => s
  | .s s => s
  | .m ⟨keys, val⟩ => "\x7b" ++ ", ".intercalate ((order.iterate path keys).map (fun key =>
      if h : key ∈ keys then key ++ ": " ++ plainValue order (path ++ [key]) (val ⟨key, h⟩)
      else "")) ++ "\x7d"
  | _ => ""

/-- Debug renderings, orders and comparisons that can be evaluated. -/
def plainRuntime : Runtime where
  debugString s := s
  debugValue := plainValue
  iterate keys := FiniteMap.ascending keys
  nodup_iterate keys := by
    rw [FiniteMap.ascending_eq_sort]
    exact Finset.sort_nodup ..
  mem_iterate keys key := by rw [FiniteMap.ascending_eq_sort, Finset.mem_sort]
  numberLt a b :=
    match numeral a, numeral b with
    | some m, some n => decide (m < n)
    | _, _ => false
  numberLt_repr m n := by simp only [Cloud.DynamoDbReplicatedKv.numeral_repr]

/-- An item with one attribute beside its key. -/
def sampleItem (key : PrimaryKey) (value : String) : Attributes :=
  key.attributes.insert "v" (.s value)

/-- The same as a scan returns it. -/
def sampleScanned (key : PrimaryKey) (value : String) : ScannedItem :=
  ⟨sampleItem key value, alphabetical⟩

end DevReplicator
