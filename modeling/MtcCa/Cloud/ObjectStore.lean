import MtcCa.Cloud.Types
import MtcCa.Lib.FiniteMap
import MtcCa.Lib.Outcome

/-! The in-memory object store, with and without retention
(`crates/cloud-memory/src/object_store.rs`, `crates/cloud-memory/src/object_lock.rs`). A call
holds the one lock for its whole duration; the clock is read up to twice in it, before the
write and for the write's time stamp. -/
namespace Cloud

structure StoredObject where
  data : Blob
  lastModified : SystemTime
  retainUntil : Option SystemTime
deriving DecidableEq

abbrev Objects := FiniteMap String StoredObject

def sizeBytes (data : Blob) : UInt64 :=
  if data.bytes.length < 2 ^ 64 then UInt64.ofNat data.bytes.length else UInt64.ofNat (2 ^ 64 - 1)

def rejectIfRetained (existing : StoredObject) (now : SystemTime) (key : String) :
    Except CloudError Unit :=
  match existing.retainUntil with
  | some retainUntil =>
    if now < retainUntil then
      .error (.retentionViolation (key ++ " is retained until " ++ retainUntil.debug))
    else .ok ()
  | none => .ok ()

namespace MemoryObjectStore

variable (objects : Objects) (key : String) (checked stamped : SystemTime)

/-- Whether a put is let through. -/
def admits (opts : PutOptions) : Except CloudError Unit :=
  match opts.mode with
  | .ifNotExists => if (objects.get? key).isSome then .error (.alreadyExists key) else .ok ()
  | .overwrite =>
    match objects.get? key with
    | some existing => rejectIfRetained existing checked key
    | none => .ok ()

def put (data : Blob) (opts : PutOptions) : Except CloudError Unit × Objects :=
  match admits objects key checked opts with
  | .error e => (.error e, objects)
  | .ok () => (.ok (), objects.insert key ⟨data, stamped, none⟩)

def get : Except CloudError Blob :=
  match objects.get? key with
  | some object => .ok object.data
  | none => .error (.notFound key)

def head : Except CloudError ObjectMetadata :=
  match objects.get? key with
  | some object => .ok ⟨sizeBytes object.data, object.lastModified⟩
  | none => .error (.notFound key)

def list (keyPrefix : String) : List ObjectInfo :=
  (objects.toList.filter (fun p => startsWith p.1 keyPrefix)).map
    (fun p => ⟨p.1, sizeBytes p.2.data, p.2.lastModified⟩)

def delete : Except CloudError Unit × Objects :=
  match objects.get? key with
  | none => (.error (.notFound key), objects)
  | some existing =>
    match rejectIfRetained existing checked key with
    | .error e => (.error e, objects)
    | .ok () => (.ok (), objects.erase key)

def putWithRetention (data : Blob) (retainUntil : SystemTime) :
    Except CloudError Unit × Objects :=
  if (objects.get? key).isSome then (.error (.alreadyExists key), objects)
  else (.ok (), objects.insert key ⟨data, stamped, some retainUntil⟩)

def extendRetention (newRetainUntil : SystemTime) : Except CloudError Unit × Objects :=
  match objects.get? key with
  | none => (.error (.notFound key), objects)
  | some existing =>
    match existing.retainUntil with
    | none => (.error (.notFound key), objects)
    | some current =>
      if newRetainUntil ≤ current then
        (.error (.retentionViolation (key ++ ": retention is forward-only (current " ++
          current.debug ++ ", requested " ++ newRetainUntil.debug ++ ")")), objects)
      else (.ok (), objects.insert key { existing with retainUntil := some newRetainUntil })

def getRetention : Except CloudError SystemTime :=
  match objects.get? key with
  | none => .error (.notFound key)
  | some existing =>
    match existing.retainUntil with
    | none => .error (.notFound key)
    | some retainUntil => .ok retainUntil

/-- One call, with the clock's readings: the reply and the objects after it. -/
def call : ObjectCall → Except CloudError ObjectReply × Objects
  | .put key data opts => (put objects key checked stamped data opts).map
      (fun r => r.map (fun _ => .done)) id
  | .get key => ((get objects key).map .data, objects)
  | .head key => ((head objects key).map .metadata, objects)
  | .list keyPrefix => (.ok (.listing (list objects keyPrefix)), objects)
  | .delete key => (delete objects key checked).map (fun r => r.map (fun _ => .done)) id
  | .putWithRetention key data retainUntil =>
    (putWithRetention objects key stamped data retainUntil).map
      (fun r => r.map (fun _ => .done)) id
  | .extendRetention key newRetainUntil =>
    (extendRetention objects key newRetainUntil).map (fun r => r.map (fun _ => .done)) id
  | .getRetention key => ((getRetention objects key).map .instant, objects)

end MemoryObjectStore

end Cloud
