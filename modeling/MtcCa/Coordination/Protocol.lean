import MtcCa.Cloud.ReplicatedKv
import MtcCa.Lib.Saturating
import MtcCa.Tree.Digest

/-! The primary-region lease item and its operations (`crates/coordination/src/protocol.rs`,
`crates/coordination/src/ids.rs`, `crates/coordination/src/errors.rs`). The store and the
clock reading are arguments; `claimLease` is split at its one suspension point, between the
read and the conditional write. -/
namespace Coordination

open Cloud

export Mtc (LogId)

export Cloud (SystemTime Duration)

export Saturating (saturate saturatingAdd)

/-- A fencing epoch; a `u64`. -/
abbrev Epoch := UInt64

def initialEpoch : Epoch := 1

structure HolderId where
  str : String
deriving DecidableEq

structure Region where
  str : String
deriving DecidableEq

def leaseTtl : Duration := ⟨60 * 10 ^ 9⟩

def takeoverSafetyMargin : Duration := ⟨60 * 10 ^ 9⟩

inductive LeaseError where
  | leaseHeld
  | lostLease
  | epochAdvanced
  | noLease (key : String)
  | malformedLease (reason : String)
  | epochOverflow (current : UInt64)
  | backend (e : CloudError)
deriving DecidableEq

def leaseSortKey : String := "primary-region-lease"

def attrRegion : String := "region"

def attrExpiresAt : String := "expires_at"

def attrEpoch : String := "epoch"

def attrHolderId : String := "holder_id"

def leaseKey (logId : LogId) : Key := ⟨"log#" ++ logId.str ++ "/" ++ leaseSortKey⟩

/-- The epoch-equality condition that coordination writes carry. -/
def epochCondition (epoch : Epoch) : Condition := .attributeEquals attrEpoch (.u64 epoch)

/-- Whole milliseconds since the Unix epoch, saturating at both ends. -/
def toUnixMillis (t : SystemTime) : UInt64 :=
  if t.nanos < 0 then 0 else saturate (t.nanos / 10 ^ 6).toNat

/-- The instant `ms` milliseconds after the Unix epoch, where its seconds fit an `i64`. -/
def fromUnixMillis (ms : UInt64) : Option SystemTime :=
  if ms.toNat / 1000 < 2 ^ 63 then some ⟨ms.toNat * 10 ^ 6⟩ else none

def durationMillis (d : Duration) : UInt64 := saturate (d.nanos / 10 ^ 6)

/-- A lease may be taken over once the clock has passed its expiry by the margin. -/
def takeoverEligibleMillis (now expiresAt margin : UInt64) : Bool :=
  saturatingAdd expiresAt margin ≤ now

def checkedNext (epoch : Epoch) : Except LeaseError Epoch :=
  if epoch.toNat + 1 < 2 ^ 64 then .ok (epoch + 1) else .error (.epochOverflow epoch)

/-- A decoded lease. -/
structure Lease where
  region : Region
  holderId : HolderId
  epoch : Epoch
  expiresAt : SystemTime
deriving DecidableEq

def leaseEntries (region : Region) (holder : HolderId) (epoch : Epoch) (expiresAt : UInt64) :
    FiniteMap String Value :=
  FiniteMap.ofList [(attrRegion, .string region.str), (attrHolderId, .string holder.str),
    (attrEpoch, .u64 epoch), (attrExpiresAt, .u64 expiresAt)]

/-- The four lease attributes as an item value. -/
def encodeLease (region : Region) (holder : HolderId) (epoch : Epoch) (expiresAt : UInt64) :
    Value :=
  .map (leaseEntries region holder epoch expiresAt)

def malformed (reason : String) : LeaseError := .malformedLease reason

def requireU64 (entries : FiniteMap String Value) (attr : String) : Except LeaseError UInt64 :=
  match entries.get? attr with
  | some (.u64 n) => .ok n
  | some _ => .error (malformed ("attribute " ++ debug attr ++ " is not a U64"))
  | none => .error (malformed ("attribute " ++ debug attr ++ " is missing"))

def requireString (entries : FiniteMap String Value) (attr : String) : Except LeaseError String :=
  match entries.get? attr with
  | some (.string s) => .ok s
  | some _ => .error (malformed ("attribute " ++ debug attr ++ " is not a String"))
  | none => .error (malformed ("attribute " ++ debug attr ++ " is missing"))

def representable (expiresAt : UInt64) : Except LeaseError SystemTime :=
  match fromUnixMillis expiresAt with
  | some t => .ok t
  | none => .error (malformed "expires_at is outside the representable range")

def decodeLease (item : Item) : Except LeaseError Lease :=
  match item.value with
  | .map entries => do
    let region ← requireString entries attrRegion
    let holderId ← requireString entries attrHolderId
    let epoch ← requireU64 entries attrEpoch
    let expiresAtMs ← requireU64 entries attrExpiresAt
    let expiresAt ← representable expiresAtMs
    .ok ⟨⟨region⟩, ⟨holderId⟩, epoch, expiresAt⟩
  | _ => .error (malformed "lease item value is not a Map")

/-- One region's identity against one log's lease item. -/
structure LeaseCoordinator where
  key : Key
  identity : HolderId
  region : Region
deriving DecidableEq

/-- A claim between its read and its write: the epoch it observed, the one it installs and
the expiry it writes. -/
structure PendingClaim where
  observed : Epoch
  nextEpoch : Epoch
  expiresAt : UInt64
  nextEpoch_eq : nextEpoch.toNat = observed.toNat + 1
deriving DecidableEq

namespace LeaseCoordinator

def new (logId : LogId) (identity : HolderId) (region : Region) : LeaseCoordinator :=
  ⟨leaseKey logId, identity, region⟩

variable (c : LeaseCoordinator)

/-- The lease view of a write this coordinator just made. -/
def ownLease (epoch : Epoch) (expiresAt : UInt64) : Except LeaseError Lease := do
  let t ← representable expiresAt
  .ok ⟨c.region, c.identity, epoch, t⟩

def readLease (items : Store) : Except LeaseError Lease :=
  match MemoryReplicatedKv.get items c.key with
  | .ok item => decodeLease item
  | .error (.notFound key) => .error (.noLease key)
  | .error other => .error (.backend other)

/-- Takes the lease from the state without an item. -/
def acquire (items : Store) (now : SystemTime) : Except LeaseError Lease × Store :=
  let expiresAt := saturatingAdd (toUnixMillis now) (durationMillis leaseTtl)
  let value := encodeLease c.region c.identity initialEpoch expiresAt
  match MemoryReplicatedKv.put items c.key value [.notExists] with
  | (.ok (), items) => (c.ownLease initialEpoch expiresAt, items)
  | (.error (.conditionFailed _), items) => (.error .leaseHeld, items)
  | (.error other, items) => (.error (.backend other), items)

/-- Extends the expiry of the lease held at `epoch`. -/
def renew (items : Store) (now : SystemTime) (epoch : Epoch) : Except LeaseError Lease × Store :=
  let expiresAt := saturatingAdd (toUnixMillis now) (durationMillis leaseTtl)
  let expr : UpdateExpression := ⟨[.set attrExpiresAt (.u64 expiresAt)]⟩
  let conditions := [.attributeEquals attrHolderId (.string c.identity.str), epochCondition epoch]
  match MemoryReplicatedKv.atomicUpdate items c.key expr conditions with
  | (.ok item, items) => (decodeLease item, items)
  | (.error (.conditionFailed _), items) => (.error .lostLease, items)
  | (.error (.notFound key), items) => (.error (.noLease key), items)
  | (.error other, items) => (.error (.backend other), items)

/-- The first part of a claim: read the lease, judge it expired and fix the next epoch. -/
def claimRead (items : Store) (now : SystemTime) : Except LeaseError PendingClaim := do
  let current ← c.readLease items
  let nowMs := toUnixMillis now
  let expiresAtMs := toUnixMillis current.expiresAt
  if ¬ takeoverEligibleMillis nowMs expiresAtMs (durationMillis takeoverSafetyMargin) then
    .error .leaseHeld
  else
    match h : checkedNext current.epoch with
    | .error e => .error e
    | .ok nextEpoch =>
      .ok {
        observed := current.epoch
        nextEpoch := nextEpoch
        expiresAt := saturatingAdd nowMs (durationMillis leaseTtl)
        nextEpoch_eq := by
          unfold checkedNext at h
          split at h
          · cases h
            rw [UInt64.toNat_add, UInt64.toNat_one, Nat.mod_eq_of_lt (by assumption)]
          · cases h }

/-- The second part: one conditional write guarded by the observed epoch. -/
def claimWrite (items : Store) (claim : PendingClaim) : Except LeaseError Lease × Store :=
  let expr : UpdateExpression :=
    ⟨[.set attrEpoch (.u64 claim.nextEpoch), .set attrHolderId (.string c.identity.str),
      .set attrRegion (.string c.region.str), .set attrExpiresAt (.u64 claim.expiresAt)]⟩
  match MemoryReplicatedKv.atomicUpdate items c.key expr [epochCondition claim.observed] with
  | (.ok item, items) => (decodeLease item, items)
  | (.error (.conditionFailed _), items) => (.error .epochAdvanced, items)
  | (.error (.notFound key), items) => (.error (.noLease key), items)
  | (.error other, items) => (.error (.backend other), items)

/-- Takes over an expired lease, with no other call between the read and the write. -/
def claimLease (items : Store) (now : SystemTime) : Except LeaseError Lease × Store :=
  match c.claimRead items now with
  | .error e => (.error e, items)
  | .ok claim => c.claimWrite items claim

end LeaseCoordinator

end Coordination
