import MtcCa.Cloud.DynamoRefinement
import MtcCa.Coordination.Operations

/-! The lease operations on the DynamoDB backend (`crates/coordination/src/protocol.rs` over
`crates/cloud-aws/src/ddb_replicated_kv.rs`), one request to the table at a time: an update
whose condition fails reads the item again before it answers. -/
namespace Coordination

open Cloud Cloud.Dynamo

/-- The two guarded updates of the lease item. -/
inductive Update where
  | renew (now : SystemTime) (epoch : Epoch)
  | claimWrite (claim : PendingClaim)

namespace Update

variable (c : LeaseCoordinator)

def expression : Update → UpdateExpression
  | .renew now _ =>
    ⟨[.set attrExpiresAt (.u64 (saturatingAdd (toUnixMillis now) (durationMillis leaseTtl)))]⟩
  | .claimWrite claim =>
    ⟨[.set attrEpoch (.u64 claim.nextEpoch), .set attrHolderId (.string c.identity.str),
      .set attrRegion (.string c.region.str), .set attrExpiresAt (.u64 claim.expiresAt)]⟩

def conditions : Update → List Condition
  | .renew _ epoch =>
    [.attributeEquals attrHolderId (.string c.identity.str), epochCondition epoch]
  | .claimWrite claim => [epochCondition claim.observed]

/-- What the caller is told when the condition failed on an item that exists. -/
def conflict : Update → LeaseError
  | .renew _ _ => .lostLease
  | .claimWrite _ => .epochAdvanced

/-- What the coordinator makes of the store's answer. -/
def answer (u : Update) : Except CloudError Item → Except LeaseError Lease
  | .ok item => decodeLease item
  | .error (.conditionFailed _) => .error u.conflict
  | .error (.notFound key) => .error (.noLease key)
  | .error other => .error (.backend other)

end Update

namespace LeaseCoordinator

variable (c : LeaseCoordinator)

/-- What the coordinator makes of the answer to its first put. -/
def acquireAnswer (expiresAt : UInt64) : Except CloudError Unit → Except LeaseError Lease
  | .ok () => c.ownLease initialEpoch expiresAt
  | .error (.conditionFailed _) => .error .leaseHeld
  | .error other => .error (.backend other)

/-- What the coordinator makes of the answer to a read. -/
def readAnswer : Except CloudError Item → Except LeaseError Lease
  | .ok item => decodeLease item
  | .error (.notFound key) => .error (.noLease key)
  | .error other => .error (.backend other)

theorem toNat_of_checkedNext {epoch next : Epoch} (h : checkedNext epoch = .ok next) :
    next.toNat = epoch.toNat + 1 := by
  obtain ⟨hlt, hnext⟩ := Outcome.ite_else_error_eq_ok_iff.mp h
  cases hnext
  rw [UInt64.toNat_add, UInt64.toNat_one, Nat.mod_eq_of_lt hlt]

/-- The claim on a lease read at `observed`. -/
def claimOn (nowMs : UInt64) {observed next : Epoch} (h : checkedNext observed = .ok next) :
    PendingClaim where
  observed := observed
  nextEpoch := next
  expiresAt := saturatingAdd nowMs (durationMillis leaseTtl)
  nextEpoch_eq := toNat_of_checkedNext h

/-- The judgement of a claim on the lease it has read. -/
def judge (now : SystemTime) (current : Lease) : Except LeaseError PendingClaim :=
  let nowMs := toUnixMillis now
  let expiresAtMs := toUnixMillis current.expiresAt
  if ¬ takeoverEligibleMillis nowMs expiresAtMs (durationMillis takeoverSafetyMargin) then
    .error .leaseHeld
  else
    match h : checkedNext current.epoch with
    | .error e => .error e
    | .ok _ => .ok (claimOn nowMs h)

/-- The memory backend's acquire is its put, read this way. -/
theorem acquire_eq (items : Store) (now : SystemTime) :
    c.acquire items now =
      (c.acquireAnswer (expiryFrom now) (MemoryReplicatedKv.put items c.key
          (encodeLease c.region c.identity initialEpoch (expiryFrom now)) [.notExists]).1,
        (MemoryReplicatedKv.put items c.key
          (encodeLease c.region c.identity initialEpoch (expiryFrom now)) [.notExists]).2) := by
  rw [acquire, ← expiryFrom]
  split <;> simp_all [acquireAnswer]

theorem claimRead_eq (items : Store) (now : SystemTime) :
    c.claimRead items now = (readAnswer (MemoryReplicatedKv.get items c.key)).bind
      (judge now) := by
  have hread : c.readLease items = readAnswer (MemoryReplicatedKv.get items c.key) := by
    unfold readLease readAnswer
    rfl
  rw [claimRead, hread]
  rfl

/-- The memory backend's two guarded updates are its atomic update, read this way. -/
theorem renew_eq (items : Store) (now : SystemTime) (epoch : Epoch) :
    c.renew items now epoch =
      ((Update.renew now epoch).answer (MemoryReplicatedKv.atomicUpdate items c.key
          ((Update.renew now epoch).expression c) ((Update.renew now epoch).conditions c)).1,
        (MemoryReplicatedKv.atomicUpdate items c.key
          ((Update.renew now epoch).expression c) ((Update.renew now epoch).conditions c)).2) := by
  rw [renew]
  simp only [Update.expression, Update.conditions]
  split <;> simp_all [Update.answer, Update.conflict]

theorem claimWrite_eq (items : Store) (claim : PendingClaim) :
    c.claimWrite items claim =
      ((Update.claimWrite claim).answer (MemoryReplicatedKv.atomicUpdate items c.key
          ((Update.claimWrite claim).expression c) ((Update.claimWrite claim).conditions c)).1,
        (MemoryReplicatedKv.atomicUpdate items c.key
          ((Update.claimWrite claim).expression c)
          ((Update.claimWrite claim).conditions c)).2) := by
  rw [claimWrite]
  simp only [Update.expression, Update.conditions]
  split <;> simp_all [Update.answer, Update.conflict]

/-- Acquiring on the table: one conditional PutItem. -/
def acquireOn (t : Table) (now : SystemTime) : Except LeaseError Lease × Table :=
  let out := DynamoDbReplicatedKv.put t c.key
    (encodeLease c.region c.identity initialEpoch (expiryFrom now)) [.notExists]
  (c.acquireAnswer (expiryFrom now) out.1, out.2)

/-- The read and the judgement of a claim on the table: one GetItem. -/
def claimReadOn (t : Table) (now : SystemTime) : Except LeaseError PendingClaim :=
  (readAnswer (DynamoDbReplicatedKv.get t c.key)).bind (judge now)

end LeaseCoordinator

/-- The first request of an update on the table: the UpdateItem. Where its condition failed the
answer is still open. -/
def sendUpdate (t : Table) (key : Key) (expr : UpdateExpression) (conditions : List Condition) :
    Option (Except CloudError Item) × Table :=
  match DynamoDbReplicatedKv.splitKey key with
  | .error e => (some (.error e), t)
  | .ok k =>
    let (text, condition, σ) := DynamoDbReplicatedKv.updateRequest expr conditions
    match updateItem t k text (some condition) σ with
    | (.ok (some attrs), t) => (some (DynamoDbReplicatedKv.decodeItemAttrs key attrs), t)
    | (.ok none, t) => (some (.error (DynamoDbReplicatedKv.malformed
        (key.str ++ ": UpdateItem ReturnValues=ALL_NEW returned no attributes"))), t)
    | (.error e, t) =>
      if DynamoDbReplicatedKv.isConditionFailed e then (none, t)
      else (some (.error (DynamoDbReplicatedKv.ddbGenericError e)), t)

/-- With nothing between its two requests an update is the backend's own. -/
theorem atomicUpdate_eq_send (t : Table) (key : Key) (expr : UpdateExpression)
    (conditions : List Condition) :
    DynamoDbReplicatedKv.atomicUpdate t key expr conditions =
      ((sendUpdate t key expr conditions).1.getD
          (.error (DynamoDbReplicatedKv.classifyFailedUpdate
            (sendUpdate t key expr conditions).2 key)),
        (sendUpdate t key expr conditions).2) := by
  unfold DynamoDbReplicatedKv.atomicUpdate sendUpdate
  cases DynamoDbReplicatedKv.splitKey key with
  | error e => rfl
  | ok k =>
    simp only
    generalize updateItem t k _ _ _ = out
    obtain ⟨e | attrs | attrs, t'⟩ := out
    · by_cases h : DynamoDbReplicatedKv.isConditionFailed e = true
      · simp only [if_pos h, Option.getD_none]
      · simp only [if_neg h, Option.getD_some]
    · rfl
    · rfl

/-- The UpdateItem of one of the two guarded updates. -/
def Update.send (c : LeaseCoordinator) (u : Update) (t : Table) :
    Option (Except CloudError Item) × Table :=
  sendUpdate t c.key (u.expression c) (u.conditions c)

/-- The table, the claims between their read and their write, and the updates whose condition
failed and which have yet to read the item again. -/
structure TableWorld where
  table : Table
  pending : ℕ → Option (LeaseCoordinator × PendingClaim)
  refused : ℕ → Option (LeaseCoordinator × Update)

/-- One request of one coordinator, with the result it hears. -/
inductive TableEvent where
  | acquire (c : LeaseCoordinator) (now : SystemTime) (result : Except LeaseError Lease)
  | claimRead (call : ℕ) (c : LeaseCoordinator) (now : SystemTime)
      (result : Except LeaseError PendingClaim)
  | update (call : ℕ) (c : LeaseCoordinator) (u : Update) (result : Except LeaseError Lease)
  | refused (call : ℕ) (c : LeaseCoordinator) (u : Update)
  | reread (call : ℕ) (c : LeaseCoordinator) (u : Update) (result : Except LeaseError Lease)
  | unheard

/-- The epoch that a successful acquire or claim hears. -/
def TableEvent.grant : TableEvent → Option Epoch
  | .acquire _ _ (.ok l) => some l.epoch
  | .update _ _ (.claimWrite _) (.ok l) => some l.epoch
  | _ => none

/-- The update may be sent: a renewal at any time, the write of a claim after its read. -/
inductive Offered (s : TableWorld) (call : ℕ) (c : LeaseCoordinator) : Update → Prop where
  | renew (now : SystemTime) (epoch : Epoch) : Offered s call c (.renew now epoch)
  | claimWrite {claim : PendingClaim} (h : s.pending call = some (c, claim)) :
      Offered s call c (.claimWrite claim)

/-- The claims in flight once the update has been applied or refused. -/
def TableWorld.settled (s : TableWorld) (call : ℕ) :
    Update → ℕ → Option (LeaseCoordinator × PendingClaim)
  | .renew _ _ => s.pending
  | .claimWrite _ => Function.update s.pending call none

/-- The steps of coordinators of one log on the table. An applied request whose answer is lost
leaves the caller with an error of the network, or with the refusal of a second attempt. -/
inductive TableStep (logId : LogId) : TableWorld → TableEvent → TableWorld → Prop where
  | acquire {s : TableWorld} {c : LeaseCoordinator} (now : SystemTime)
      (hc : c.key = leaseKey logId) :
      TableStep logId s (.acquire c now (c.acquireOn s.table now).1)
        { s with table := (c.acquireOn s.table now).2 }
  | acquireUnheard {s : TableWorld} {c : LeaseCoordinator} (now : SystemTime)
      (hc : c.key = leaseKey logId) :
      TableStep logId s .unheard { s with table := (c.acquireOn s.table now).2 }
  | claimRead {s : TableWorld} {c : LeaseCoordinator} {call : ℕ} {claim : PendingClaim}
      (now : SystemTime) (hc : c.key = leaseKey logId) (hfree : s.pending call = none)
      (hread : c.claimReadOn s.table now = .ok claim) :
      TableStep logId s (.claimRead call c now (.ok claim))
        { s with pending := Function.update s.pending call (some (c, claim)) }
  | claimReadFailed {s : TableWorld} {c : LeaseCoordinator} {call : ℕ} {err : LeaseError}
      (now : SystemTime) (hc : c.key = leaseKey logId) (hfree : s.pending call = none)
      (hread : c.claimReadOn s.table now = .error err) :
      TableStep logId s (.claimRead call c now (.error err)) s
  | update {s : TableWorld} {c : LeaseCoordinator} {call : ℕ} {u : Update}
      {out : Except CloudError Item} (hc : c.key = leaseKey logId) (hu : Offered s call c u)
      (hsend : (u.send c s.table).1 = some out) :
      TableStep logId s (.update call c u (u.answer out))
        { s with table := (u.send c s.table).2, pending := s.settled call u }
  | refused {s : TableWorld} {c : LeaseCoordinator} {call : ℕ} {u : Update}
      (hc : c.key = leaseKey logId) (hu : Offered s call c u)
      (hfree : s.refused call = none) (hsend : (u.send c s.table).1 = none) :
      TableStep logId s (.refused call c u)
        { table := (u.send c s.table).2, pending := s.settled call u
          refused := Function.update s.refused call (some (c, u)) }
  | reread {s : TableWorld} {c : LeaseCoordinator} {call : ℕ} {u : Update}
      (hc : c.key = leaseKey logId) (hrefused : s.refused call = some (c, u)) :
      TableStep logId s
        (.reread call c u
          (u.answer (.error (DynamoDbReplicatedKv.classifyFailedUpdate s.table c.key))))
        { s with refused := Function.update s.refused call none }
  | updateUnheard {s : TableWorld} {c : LeaseCoordinator} {call : ℕ} {u : Update}
      (retried : Bool) (hc : c.key = leaseKey logId) (hu : Offered s call c u)
      (hfree : s.refused call = none) :
      TableStep logId s .unheard
        { table := (u.send c s.table).2, pending := s.settled call u
          refused := if retried then Function.update s.refused call (some (c, u))
            else s.refused }

end Coordination
