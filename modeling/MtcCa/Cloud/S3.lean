import MtcCa.Cloud.Types
import MtcCa.Lib.FiniteMap

/-! The service behind the S3 backend: a bucket with versioning and Object Lock, and the
requests the backend sends it. A key is a stack of versions; every request is atomic and is
answered at the service's own clock. -/
namespace Cloud.S3

structure Version where
  id : ℕ
  data : Blob
  lastModified : SystemTime
  retainUntil : Option SystemTime
deriving DecidableEq

/-- A bucket: for each key its versions, the newest first, with identifiers that are never
given out twice. -/
structure Bucket where
  versions : FiniteMap String (List Version)
  nextId : ℕ
  ordered : ∀ key stack, versions.get? key = some stack →
    (nextId :: stack.map Version.id).Pairwise (· > ·)

/-- An error response. -/
structure Error where
  code : String
  status : ℕ
deriving DecidableEq

def Error.noSuchKey : Error := ⟨"NoSuchKey", 404⟩

/-- A `HEAD` response has no body to carry a code. -/
def Error.notFound : Error := ⟨"NotFound", 404⟩

def Error.noSuchObjectLockConfiguration : Error := ⟨"NoSuchObjectLockConfiguration", 404⟩

def Error.preconditionFailed : Error := ⟨"PreconditionFailed", 412⟩

def Error.accessDenied : Error := ⟨"AccessDenied", 403⟩

def Error.invalidArgument : Error := ⟨"InvalidArgument", 400⟩

namespace Bucket

def empty : Bucket := ⟨FiniteMap.empty, 0, by simp⟩

/-- The versions of a key, the newest first. -/
def stack (b : Bucket) (key : String) : List Version := (b.versions.get? key).getD []

def current (b : Bucket) (key : String) : Option Version := (b.stack key).head?

theorem stack_ordered (b : Bucket) (key : String) :
    (b.nextId :: (b.stack key).map Version.id).Pairwise (· > ·) := by
  unfold stack
  cases h : b.versions.get? key with
  | none => simp
  | some stack => exact b.ordered key stack h

/-- The bucket with other versions at one key. -/
def replace (b : Bucket) (key : String) (stack : List Version) (nextId : ℕ)
    (hle : b.nextId ≤ nextId) (hstack : (nextId :: stack.map Version.id).Pairwise (· > ·)) :
    Bucket where
  versions := b.versions.insert key stack
  nextId := nextId
  ordered := by
    intro key' stack' h
    rw [FiniteMap.get?_insert] at h
    split at h
    · cases h
      exact hstack
    · obtain ⟨hlt, hids⟩ := List.pairwise_cons.mp (b.ordered key' stack' h)
      exact List.pairwise_cons.mpr ⟨fun id hid => lt_of_lt_of_le (hlt id hid) hle, hids⟩

def push (b : Bucket) (key : String) (data : Blob) (now : SystemTime)
    (retainUntil : Option SystemTime) : Bucket :=
  b.replace key (⟨b.nextId, data, now, retainUntil⟩ :: b.stack key) (b.nextId + 1)
    (Nat.le_succ _) (by
      refine List.pairwise_cons.mpr ⟨?_, b.stack_ordered key⟩
      intro id hid
      rcases List.mem_cons.mp hid with rfl | hid
      · exact Nat.lt_succ_self _
      · exact Nat.lt_succ_of_lt ((List.pairwise_cons.mp (b.stack_ordered key)).1 id hid))

def remove (b : Bucket) (key : String) (versionId : ℕ) : Bucket :=
  b.replace key ((b.stack key).filter (fun v => v.id ≠ versionId)) b.nextId (le_refl _)
    ((b.stack_ordered key).sublist (((List.filter_sublist).map _).cons_cons _))

/-- The newest of some versions with another retention instant. -/
def retainNewest (T : SystemTime) : List Version → List Version
  | [] => []
  | v :: rest => { v with retainUntil := some T } :: rest

theorem map_id_retainNewest (T : SystemTime) (stack : List Version) :
    (retainNewest T stack).map Version.id = stack.map Version.id := by
  cases stack <;> rfl

def retain (b : Bucket) (key : String) (T : SystemTime) : Bucket :=
  b.replace key (retainNewest T (b.stack key)) b.nextId (le_refl _)
    (by
      rw [map_id_retainNewest]
      exact b.stack_ordered key)

section lookup

variable {b : Bucket} {key key' : String}

theorem stack_replace {stack : List Version} {nextId : ℕ} {hle : b.nextId ≤ nextId}
    {hstack : (nextId :: stack.map Version.id).Pairwise (· > ·)} :
    (b.replace key stack nextId hle hstack).stack key' =
      if key' = key then stack else b.stack key' := by
  unfold Bucket.stack replace
  rw [FiniteMap.get?_insert]
  split <;> rfl

theorem stack_push {data : Blob} {now : SystemTime} {r : Option SystemTime} :
    (b.push key data now r).stack key' =
      if key' = key then ⟨b.nextId, data, now, r⟩ :: b.stack key else b.stack key' :=
  stack_replace

theorem stack_remove {versionId : ℕ} :
    (b.remove key versionId).stack key' =
      if key' = key then (b.stack key).filter (fun v => v.id ≠ versionId) else b.stack key' :=
  stack_replace

theorem stack_retain {T : SystemTime} :
    (b.retain key T).stack key' =
      if key' = key then retainNewest T (b.stack key) else b.stack key' :=
  stack_replace

/-- Removing the newest version uncovers the one below it. -/
theorem filter_newest {v : Version} {rest : List Version} (h : b.stack key = v :: rest) :
    (b.stack key).filter (fun u => u.id ≠ v.id) = rest := by
  have hids := (List.pairwise_cons.mp (b.stack_ordered key)).2
  rw [h, List.map_cons] at hids
  have hrest := (List.pairwise_cons.mp hids).1
  rw [h, List.filter_cons_of_neg (by simp), List.filter_eq_self]
  intro u hu
  have hlt := hrest u.id (List.mem_map_of_mem hu)
  exact decide_eq_true (ne_of_lt hlt)

theorem current_eq_none_iff : b.current key = none ↔ b.stack key = [] := List.head?_eq_none_iff

theorem current_eq_some_iff {v : Version} :
    b.current key = some v ↔ ∃ rest, b.stack key = v :: rest := List.head?_eq_some_iff

end lookup

end Bucket

/-- The version is inside its retention window. -/
def Version.Active (v : Version) (now : SystemTime) : Prop :=
  ∃ T, v.retainUntil = some T ∧ now < T

instance (v : Version) (now : SystemTime) : Decidable (v.Active now) :=
  match h : v.retainUntil with
  | none => isFalse (by rintro ⟨T, hT, -⟩; rw [h] at hT; cases hT)
  | some T =>
    if hlt : now < T then isTrue ⟨T, h, hlt⟩
    else isFalse (by rintro ⟨T', hT', hlt'⟩; rw [h] at hT'; cases hT'; exact hlt hlt')

/-- `HeadObject`: versioning is on, so the response names the version it is about. -/
structure HeadOutput where
  contentLength : Option ℤ
  lastModified : Option SystemTime
  versionId : ℕ

structure ListedObject where
  key : Option String
  size : Option ℤ
  lastModified : Option SystemTime

/-- One page of a listing; the continuation token stands for the number of keys listed. -/
structure ListOutput where
  contents : List ListedObject
  isTruncated : Option Bool
  nextContinuationToken : Option ℕ

/-- The most keys a page of a listing holds. -/
def maxKeys : ℕ := 1000

section requests

variable (b : Bucket) (now : SystemTime) (key : String)

/-- `PutObject`, with `If-None-Match: *` or without, with a Compliance lock or without. -/
def putObject (data : Blob) (ifNoneMatch : Bool) (retainUntil : Option SystemTime) :
    Except Error Unit × Bucket :=
  if ifNoneMatch ∧ (b.current key).isSome then (.error .preconditionFailed, b)
  else if ∃ T, retainUntil = some T ∧ T ≤ now then (.error .invalidArgument, b)
  else (.ok (), b.push key data now retainUntil)

def getObject : Except Error Blob :=
  match b.current key with
  | some v => .ok v.data
  | none => .error .noSuchKey

def headObject : Except Error HeadOutput :=
  match b.current key with
  | some v => .ok ⟨some v.data.bytes.length, some v.lastModified, v.id⟩
  | none => .error .notFound

/-- The keys with a current version, in ascending order. -/
def currentObjects (keyPrefix : String) : List ListedObject :=
  (b.versions.toList.filter (fun p => startsWith p.1 keyPrefix)).filterMap (fun p =>
    p.2.head?.map (fun v => ⟨some p.1, some v.data.bytes.length, some v.lastModified⟩))

def listObjectsV2 (keyPrefix : String) (continuationToken : Option ℕ) : ListOutput :=
  let listed := continuationToken.getD 0
  let remaining := (currentObjects b keyPrefix).drop listed
  if maxKeys < remaining.length then
    ⟨remaining.take maxKeys, some true, some (listed + maxKeys)⟩
  else ⟨remaining, some false, none⟩

/-- `DeleteObject` naming a version: refused while that version is locked, else that version
is gone. -/
def deleteObject (versionId : ℕ) : Except Error Unit × Bucket :=
  if ∃ v ∈ b.stack key, v.id = versionId ∧ v.Active now then (.error .accessDenied, b)
  else (.ok (), b.remove key versionId)

/-- `GetObjectRetention` of the current version. -/
def getObjectRetention : Except Error (Option SystemTime) :=
  match b.current key with
  | none => .error .noSuchKey
  | some v =>
    match v.retainUntil with
    | none => .error .noSuchObjectLockConfiguration
    | some T => .ok (some T)

/-- `PutObjectRetention` of the current version, in Compliance mode: an instant that has
passed is invalid, and an active lock only grows. -/
def putObjectRetention (T : SystemTime) : Except Error Unit × Bucket :=
  match b.current key with
  | none => (.error .noSuchKey, b)
  | some v =>
    if T ≤ now then (.error .invalidArgument, b)
    else if ∃ T', v.retainUntil = some T' ∧ T < T' then (.error .accessDenied, b)
    else (.ok (), b.retain key T)

end requests

end Cloud.S3
