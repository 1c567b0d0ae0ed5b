import MtcCa.Replicator.Ddb

/-! The S3 poller: version listing and copying (`crates/dev-replicator/src/s3.rs`), and the
published status (`crates/dev-replicator/src/control.rs`). -/
namespace DevReplicator

open Cloud

/-- An object with the metadata that is carried over. -/
structure S3Object where
  body : List UInt8
  contentType : Option String
  lockMode : Option String
  retainUntil : Option SystemTime
  legalHold : Option String
deriving DecidableEq

/-- A version of an object, or a delete marker. -/
structure S3Entry where
  objectKey : String
  versionId : String
  content : Option S3Object
deriving DecidableEq

/-- A versioned bucket: its entries in the order they were created. -/
abbrev S3Bucket := List S3Entry

/-- What the bucket holds under a key now. -/
def S3Bucket.current (b : S3Bucket) (objectKey : String) : Option S3Object :=
  ((b.filter (fun e => e.objectKey = objectKey)).getLast?).bind S3Entry.content

/-- Deduplication key: object key and version id. -/
abbrev S3Key := String × String

def S3Entry.ref (e : S3Entry) : S3Key := (e.objectKey, e.versionId)

structure S3VersionEvent where
  objectKey : String
  versionId : String
  isDeleteMarker : Bool
deriving DecidableEq

/-- A page of a listing; either name may be missing in a response. -/
structure ListPage where
  versions : List (Option String × Option String)
  deleteMarkers : List (Option String × Option String)

/-- How the requests for one change go. -/
structure S3Fate where
  getObject : Bool
  getRetention : Bool
  getLegalHold : Bool
  write : Fate
deriving DecidableEq

structure S3Poller where
  scheduler : LagScheduler S3Key S3VersionEvent

namespace S3Poller

def new (initialLag : LagPolicy) : S3Poller := ⟨.new initialLag⟩

def setLagPolicy (p : S3Poller) (policy : LagPolicy) : S3Poller :=
  ⟨p.scheduler.setPolicy policy⟩

def pendingLen (p : S3Poller) : ℕ := p.scheduler.pendingLen

def appliedLen (p : S3Poller) : ℕ := p.scheduler.appliedLen

/-- The change a listed name stands for, if it is complete. -/
def listed (isDeleteMarker : Bool) : Option String × Option String → Option (S3Key × S3VersionEvent)
  | (some key, some versionId) => some ((key, versionId), ⟨key, versionId, isDeleteMarker⟩)
  | _ => none

/-- The changes of a page in the order they are looked at: its versions, then its delete
markers. -/
def pageOffers (page : ListPage) : List (S3Key × S3VersionEvent) :=
  page.versions.filterMap (listed false) ++ page.deleteMarkers.filterMap (listed true)

/-- The page loop, with the count of what was queued. -/
def listPages (now : SystemTime) : List (Except ReplicatorError ListPage) →
    LagScheduler S3Key S3VersionEvent → ℕ →
      Except ReplicatorError ℕ × LagScheduler S3Key S3VersionEvent
  | [], scheduler, newlyQueued => (.ok newlyQueued, scheduler)
  | .error e :: _, scheduler, _ => (.error e, scheduler)
  | .ok page :: pages, scheduler, newlyQueued =>
    let (scheduler, newlyQueued) := (pageOffers page).foldl (fun st offer =>
      let (queued, scheduler) := st.1.discover offer.1 offer.2 now
      (scheduler, st.2 + queued.toNat)) (scheduler, newlyQueued)
    listPages now pages scheduler newlyQueued

def discover (p : S3Poller) (now : SystemTime) (pages : List (Except ReplicatorError ListPage)) :
    Except ReplicatorError ℕ × S3Poller :=
  let (result, scheduler) := listPages now pages p.scheduler 0
  (result, ⟨scheduler⟩)

/-- A write request that takes effect unless it is dropped. -/
def send (fate : Fate) (target : S3Bucket) (entry : S3Entry) : Outcome × S3Bucket :=
  match fate with
  | .dropped => (.failed false, target)
  | .answerLost => (.failed true, target ++ [entry])
  | .delivered => (.applied, target ++ [entry])

/-- Reads one version from the source, by its key and id. -/
def getObject (source : S3Bucket) (event : S3VersionEvent) : Option S3Object :=
  (source.find? (fun e => e.objectKey = event.objectKey ∧ e.versionId = event.versionId)).bind
    S3Entry.content

/-- Copies one version, or deletes; the target gives the new version the id `freshId`. Lock
metadata that cannot be read is left out. -/
def applyOne (source : S3Bucket) (freshId : String) (fate : S3Fate) (event : S3VersionEvent)
    (target : S3Bucket) : Outcome × S3Bucket :=
  if event.isDeleteMarker then send fate.write target ⟨event.objectKey, freshId, none⟩
  else
    match if fate.getObject then getObject source event else none with
    | none => (.failed false, target)
    | some get =>
      let put : S3Object :=
        { body := get.body
          contentType := get.contentType
          lockMode := if fate.getRetention then get.lockMode else none
          retainUntil := if fate.getRetention then get.retainUntil else none
          legalHold := if fate.getLegalHold then get.legalHold else none }
      send fate.write target ⟨event.objectKey, freshId, some put⟩

/-- Replicates what is due at `now`. -/
def applyDue (p : S3Poller) (now : SystemTime) (source : S3Bucket) (freshId : S3Key → String)
    (fate : S3Key → S3Fate) (target : S3Bucket) :
    ApplySummary × List (Discovered S3Key S3VersionEvent × Outcome) × S3Poller × S3Bucket :=
  let (due, scheduler) := p.scheduler.drainDue now
  let (attempts, target) := applyAll (fun item target =>
    applyOne source (freshId item.key) (fate item.key) item.event target) due target
  (summarize attempts, attempts, ⟨scheduler⟩, target)

/-- The pages before a failed one. -/
def readPages : List (Except ReplicatorError ListPage) → List ListPage
  | .ok page :: pages => page :: readPages pages
  | _ => []

theorem scheduler_listPages (now : SystemTime) (pages : List (Except ReplicatorError ListPage))
    (s : LagScheduler S3Key S3VersionEvent) (n : ℕ) :
    (listPages now pages s n).2 = s.offerAll now ((readPages pages).flatMap pageOffers) := by
  have hfold : ∀ (offers : List (S3Key × S3VersionEvent)) (s : LagScheduler S3Key S3VersionEvent)
      (n : ℕ), (offers.foldl (fun st offer =>
        let (queued, scheduler) := st.1.discover offer.1 offer.2 now
        (scheduler, st.2 + queued.toNat)) (s, n)).1 = s.offerAll now offers := by
    intro offers
    induction offers with
    | nil => exact fun _ _ => rfl
    | cons offer offers ih => exact fun s n => ih _ _
  induction pages generalizing s n with
  | nil => rfl
  | cons page pages ih =>
    cases page with
    | error e => rfl
    | ok page =>
      rw [readPages, List.flatMap_cons, LagScheduler.offerAll_append, ← hfold _ s n]
      exact ih _ _

/-- Discovering is offering the listed entries, page by page. -/
theorem scheduler_discover {p : S3Poller} {now : SystemTime}
    {pages : List (Except ReplicatorError ListPage)} :
    (p.discover now pages).2.scheduler =
      p.scheduler.offerAll now ((readPages pages).flatMap pageOffers) :=
  scheduler_listPages ..

/-- A change of the S3 link fails when its write is not delivered or its object is not read. -/
theorem applyOne_failed_iff {source target : S3Bucket} {freshId : String} {fate : S3Fate}
    {event : S3VersionEvent} :
    (∃ written, (applyOne source freshId fate event target).1 = .failed written) ↔
      fate.write ≠ .delivered ∨
        (event.isDeleteMarker = false ∧
          (fate.getObject = false ∨ getObject source event = none)) := by
  have hsend : ∀ entry, (∃ written, (send fate.write target entry).1 = .failed written) ↔
      fate.write ≠ .delivered := by
    intro entry
    cases hwrite : fate.write <;> simp [send]
  unfold applyOne
  cases hmarker : event.isDeleteMarker with
  | true => simpa using hsend _
  | false =>
    cases hread : fate.getObject with
    | false => simp
    | true =>
      cases hget : getObject source event with
      | none => simp
      | some get => simpa [hget] using hsend _

end S3Poller

/-- The published status of one resource; the age is in nanoseconds. -/
structure ResourceStatus where
  pending : ℕ
  applied : ℕ
  oldestPendingAge : Option ℕ
deriving DecidableEq

def LagScheduler.status {K E : Type} [DecidableEq K] (s : LagScheduler K E) (now : SystemTime) :
    ResourceStatus :=
  ⟨s.pendingLen, s.appliedLen, s.oldestPendingAge now⟩

end DevReplicator
