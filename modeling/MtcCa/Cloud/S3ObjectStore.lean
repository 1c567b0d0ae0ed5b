import MtcCa.Cloud.S3
import MtcCa.Lib.Outcome

/-! The S3 backend of the object store and of its retention locks
(`crates/cloud-aws/src/s3_object_store.rs`, `crates/cloud-aws/src/s3_object_lock.rs`,
`crates/cloud-aws/src/error.rs`). A method that sends two requests is split between them. -/
namespace Cloud

/-- What a failing request was trying to do. -/
inductive Op where
  | read
  | createOnlyWrite
  | retentionGuardedWrite
  | retentionExtend
deriving DecidableEq

def retryableCodes : List String :=
  ["SlowDown", "Throttling", "ThrottlingException", "RequestTimeout", "InternalError",
    "ServiceUnavailable", "RequestTimeTooSkewed"]

def genericTransport (code : String) (status : ℕ) : CloudError :=
  .transport (code ∈ retryableCodes ∨ status = 429 ∨ 500 ≤ status)
    ("S3 error " ++ code ++ " (HTTP " ++ toString status ++ ")")

/-- The classification of an error response, by what the request was for. -/
def classify (op : Op) (key : String) (e : S3.Error) : CloudError :=
  if e.code ∈ ["NoSuchKey", "NoSuchVersion", "NotFound"] then .notFound key
  else if op = .read ∧
      e.code ∈ ["NoSuchObjectLockConfiguration", "ObjectLockConfigurationNotFoundError"] then
    .notFound key
  else if op = .createOnlyWrite ∧
      e.code ∈ ["PreconditionFailed", "ConditionalRequestConflict"] then
    .alreadyExists key
  else if op = .retentionGuardedWrite ∧
      e.code ∈ ["AccessDenied", "InvalidRequest", "InvalidArgument"] then
    .retentionViolation
      (key ++ ": blocked by an active Object Lock Compliance retention (S3 " ++ e.code ++ ")")
  else if op = .retentionExtend ∧
      e.code ∈ ["AccessDenied", "InvalidRequest", "InvalidArgument"] then
    .retentionViolation (key ++ ": retention extension rejected -- Compliance mode is " ++
      "forward-only (S3 " ++ e.code ++ ")")
  else genericTransport e.code e.status

/-- A size or length of the service as an unsigned number. -/
def nonNegativeU64 (value : Option ℤ) : UInt64 :=
  match value with
  | some n => if 0 ≤ n then UInt64.ofNat n.toNat else 0
  | none => 0

def systemTimeOrEpoch (value : Option SystemTime) : SystemTime := value.getD ⟨0⟩

namespace S3ObjectStore

open S3 (Bucket)

variable (b : Bucket) (now : SystemTime) (key : String)

/-- The retention instant of the key's current version; no key and no lock are both `none`. -/
def currentRetention : Except CloudError (Option SystemTime) :=
  match S3.getObjectRetention b key with
  | .ok retention => .ok retention
  | .error e =>
    match classify .read key e with
    | .notFound _ => .ok none
    | other => .error other

def putIfNotExists (data : Blob) : Except CloudError Unit × Bucket :=
  (S3.putObject b now key data true none).map (fun r => r.mapError (classify .createOnlyWrite key))
    id

/-- The check that precedes an overwriting put. -/
def overwriteCheck : Except CloudError Unit := do
  let retention ← currentRetention b key
  if retention.isSome then
    .error (.retentionViolation (key ++ ": carries Object Lock retention; PutMode::Overwrite " ++
      "never targets append-only log content"))
  else .ok ()

/-- The write of an overwriting put. -/
def overwriteWrite (data : Blob) : Except CloudError Unit × Bucket :=
  (S3.putObject b now key data false none).map
    (fun r => r.mapError (classify .retentionGuardedWrite key)) id

def put (data : Blob) (opts : PutOptions) : Except CloudError Unit × Bucket :=
  match opts.mode with
  | .ifNotExists => putIfNotExists b now key data
  | .overwrite =>
    match overwriteCheck b key with
    | .error e => (.error e, b)
    | .ok () => overwriteWrite b now key data

def get : Except CloudError Blob := (S3.getObject b key).mapError (classify .read key)

def head : Except CloudError ObjectMetadata := do
  let output ← (S3.headObject b key).mapError (classify .read key)
  .ok ⟨nonNegativeU64 output.contentLength, systemTimeOrEpoch output.lastModified⟩

/-- The objects of a page that have a key. -/
def listedOf (contents : List S3.ListedObject) : List ObjectInfo :=
  contents.filterMap (fun o => o.key.map (fun key =>
    ⟨key, nonNegativeU64 o.size, systemTimeOrEpoch o.lastModified⟩))

/-- The pages of a listing, from a continuation token on. No key is listed twice, so as many
rounds as keys are enough. -/
def listLoop (keyPrefix : String) : ℕ → Option ℕ → List ObjectInfo → List ObjectInfo
  | 0, _, listed => listed
  | fuel + 1, continuationToken, listed =>
    let output := S3.listObjectsV2 b keyPrefix continuationToken
    let listed := listed ++ listedOf output.contents
    if output.isTruncated = some true then
      listLoop keyPrefix fuel output.nextContinuationToken listed
    else listed

def list (keyPrefix : String) : List ObjectInfo :=
  (listLoop b keyPrefix (b.versions.keys.card + 1) none []).insertionSort
    (fun x y => x.key ≤ y.key)

/-- The version a delete is going to name. -/
def deleteHead : Except CloudError ℕ := do
  let head ← (S3.headObject b key).mapError (classify .read key)
  .ok head.versionId

def deleteVersion (versionId : ℕ) : Except CloudError Unit × Bucket :=
  (S3.deleteObject b now key versionId).map
    (fun r => r.mapError (classify .retentionGuardedWrite key)) id

def delete : Except CloudError Unit × Bucket :=
  match deleteHead b key with
  | .error e => (.error e, b)
  | .ok versionId => deleteVersion b now key versionId

def putWithRetention (data : Blob) (retainUntil : SystemTime) : Except CloudError Unit × Bucket :=
  (S3.putObject b now key data true (some retainUntil)).map
    (fun r => r.mapError (classify .createOnlyWrite key)) id

/-- The check that precedes an extension. -/
def extendCheck (newRetainUntil : SystemTime) : Except CloudError Unit := do
  let retention ← currentRetention b key
  match retention with
  | none => .error (.notFound key)
  | some current =>
    if newRetainUntil ≤ current then
      .error (.retentionViolation (key ++ ": retention is forward-only (current " ++
        current.debug ++ ", requested " ++ newRetainUntil.debug ++ ")"))
    else .ok ()

def extendWrite (newRetainUntil : SystemTime) : Except CloudError Unit × Bucket :=
  (S3.putObjectRetention b now key newRetainUntil).map
    (fun r => r.mapError (classify .retentionExtend key)) id

def extendRetention (newRetainUntil : SystemTime) : Except CloudError Unit × Bucket :=
  match extendCheck b key newRetainUntil with
  | .error e => (.error e, b)
  | .ok () => extendWrite b now key newRetainUntil

def getRetention : Except CloudError SystemTime := do
  let retention ← currentRetention b key
  match retention with
  | none => .error (.notFound key)
  | some retainUntil => .ok retainUntil

/-- One call, all of its requests answered one after another at the instant `now`. -/
def call : ObjectCall → Except CloudError ObjectReply × Bucket
  | .put key data opts => (put b now key data opts).map (fun r => r.map (fun _ => .done)) id
  | .get key => ((get b key).map .data, b)
  | .head key => ((head b key).map .metadata, b)
  | .list keyPrefix => (.ok (.listing (list b keyPrefix)), b)
  | .delete key => (delete b now key).map (fun r => r.map (fun _ => .done)) id
  | .putWithRetention key data retainUntil =>
    (putWithRetention b now key data retainUntil).map (fun r => r.map (fun _ => .done)) id
  | .extendRetention key newRetainUntil =>
    (extendRetention b now key newRetainUntil).map (fun r => r.map (fun _ => .done)) id
  | .getRetention key => ((getRetention b key).map .instant, b)

end S3ObjectStore

end Cloud
