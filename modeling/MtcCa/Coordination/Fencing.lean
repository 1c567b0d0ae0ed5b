import MtcCa.Cloud.Transact
import MtcCa.Coordination.Safety

/-! Writes guarded by `epochCondition`, among the lease steps. The condition reads the epoch
attribute of the item it stands on, so it fences a stale writer where that is the lease item, and
not where it is a copy of the epoch elsewhere. -/
namespace Coordination

open Cloud Transition MemoryReplicatedKv

/-- A coordination write of any of the three kinds. -/
inductive GuardedWrite where
  | put (key : Key) (value : Value) (conditions : List Condition)
  | update (key : Key) (expr : UpdateExpression) (conditions : List Condition)
  | transact (ops : List Operation)

/-- The write as the store performs it. -/
def GuardedWrite.apply (items : Store) : GuardedWrite → Except CloudError Unit × Store
  | .put key value conditions => MemoryReplicatedKv.put items key value conditions
  | .update key expr conditions =>
    match atomicUpdate items key expr conditions with
    | (.ok _, items) => (.ok (), items)
    | (.error e, items) => (.error e, items)
  | .transact ops => MemoryReplicatedKv.transact items ops

/-- The operations a write is made of. -/
def GuardedWrite.ops : GuardedWrite → List Operation
  | .put key value conditions => [.put key value conditions]
  | .update key expr conditions => [.update key expr conditions]
  | .transact ops => ops

/-- Something is written, and epoch `e` is among the conditions. -/
def GuardedWrite.GuardedBy (e : Epoch) (g : GuardedWrite) : Prop :=
  (∃ op ∈ g.ops, op.Writes op.key) ∧ ∃ op ∈ g.ops, epochCondition e ∈ op.conditions

inductive FencedEvent where
  | lease (ev : Event)
  | write (e : Epoch) (g : GuardedWrite) (result : Except CloudError Unit)

/-- Lease steps, and writes guarded by an epoch. -/
inductive FencedStep (logId : LogId) : World → FencedEvent → World → Prop where
  | lease {w w' : World} {ev : Event} (h : Step logId w ev w') :
      FencedStep logId w (.lease ev) w'
  | write {w : World} {e : Epoch} {g : GuardedWrite} (hg : g.GuardedBy e) :
      FencedStep logId w (.write e g (g.apply w.items).1) { w with items := (g.apply w.items).2 }

/-- The lease sits at epoch `e`, and no claim so far installed a higher one. -/
def Fenced (logId : LogId) (events : List FencedEvent) (items : Store) (e : Epoch) : Prop :=
  epochAt items (leaseKey logId) = some (.u64 e) ∧
    ∀ call c l, FencedEvent.lease (.claimWrite call c (.ok l)) ∈ events →
      l.epoch.toNat ≤ e.toNat

/-- The value carries an epoch attribute not below `e`. -/
def NotBelow (e : Epoch) (v : Value) : Prop :=
  ∃ e' : Epoch, attributeValue (some v) attrEpoch = some (.u64 e') ∧ e.toNat ≤ e'.toNat

/-- The operation leaves its item in place with an epoch attribute not below `e`. -/
def LeavesEpoch (items : Store) (e : Epoch) : Operation → Prop
  | .put _ v _ => NotBelow e v
  | .update k expr _ =>
    ∀ v v', items.get? k = some v → applyUpdateActions v expr = .ok v' → NotBelow e v'
  | .delete _ _ => False
  | .conditionCheck _ _ => True

/-- The last write of the lease item, if there is one, leaves its epoch not below `e`. -/
def KeepsLease (logId : LogId) (items : Store) (e : Epoch) (ops : List Operation) : Prop :=
  ∀ pre op post, ops = pre ++ op :: post → op.Writes (leaseKey logId) →
    (∀ o ∈ post, ¬ o.Writes (leaseKey logId)) → LeavesEpoch items e op

/-- The write is conditioned on epoch `e` of the lease item itself. -/
def GuardedWrite.OnLease (logId : LogId) (e : Epoch) (g : GuardedWrite) : Prop :=
  ∃ op ∈ g.ops, op.key = leaseKey logId ∧ epochCondition e ∈ op.conditions

/-- What a guarded write needs to be fenced in a run with the given events so far: where its
conditions hold, one of them reads the lease item, and the write keeps the lease item and every
epoch that was claimed. -/
def Anchored (logId : LogId) (events : List FencedEvent) (items : Store) : FencedEvent → Prop
  | .lease _ => True
  | .write e g _ =>
    Admitted items g.ops → g.OnLease logId e ∧
      ∀ call c l, FencedEvent.lease (.claimWrite call c (.ok l)) ∈ events →
        KeepsLease logId items l.epoch g.ops

/-- The runs whose writes are all anchored. -/
inductive AnchoredRun (logId : LogId) (w₀ : World) : List FencedEvent → World → Prop where
  | refl : AnchoredRun logId w₀ [] w₀
  | snoc {events : List FencedEvent} {ev : FencedEvent} {w w' : World}
      (h : AnchoredRun logId w₀ events w) (hstep : FencedStep logId w ev w')
      (hanch : Anchored logId events w.items ev) :
      AnchoredRun logId w₀ (events ++ [ev]) w'

theorem AnchoredRun.trace {logId : LogId} {w₀ w : World} {events : List FencedEvent}
    (h : AnchoredRun logId w₀ events w) : Trace (FencedStep logId) w₀ events w := by
  induction h with
  | refl => exact .refl
  | snoc _ hstep _ ih => exact ih.snoc hstep

variable {logId : LogId} {items items' : Store} {e : Epoch} {g : GuardedWrite}

theorem admitted_singleton {op : Operation} {step : PlannedWrite}
    (h : plan items op = .ok step) : Admitted items [op] := by
  intro o ho
  rw [List.mem_singleton.mp ho]
  exact ⟨step, h⟩

/-- A write lands where a transaction of its operations would, with the same items, or
changes nothing. -/
theorem lands {result : Except CloudError Unit} (h : g.apply items = (result, items')) :
    (result = .ok () ∧ Admitted items g.ops ∧
      ∀ key, items'.get? key = g.ops.foldl (plannedAt items key) (items.get? key)) ∨
    ((∃ err, result = .error err) ∧ items' = items) := by
  cases g with
  | put k v conditions =>
    rcases put_cases items k conditions v with ⟨hcond, heq⟩ | ⟨reason, heq⟩
    · cases heq.symm.trans h
      have hplan : plan items (.put k v conditions) = .ok (.put k v) := by simp [plan, hcond]
      refine Or.inl ⟨rfl, admitted_singleton hplan, ?_⟩
      intro key
      simp only [GuardedWrite.ops, List.foldl_cons, List.foldl_nil, plannedAt,
        FiniteMap.get?_insert, eq_comm]
    · cases heq.symm.trans h
      exact Or.inr ⟨⟨_, rfl⟩, rfl⟩
  | update k expr conditions =>
    rcases atomicUpdate_cases items k conditions expr with
      ⟨entries, entries', hget, hcond, hfold, heq⟩ | ⟨err, heq⟩
    · simp only [GuardedWrite.apply, heq] at h
      cases h
      have hupd : applyUpdateActions (.map entries) expr = .ok (.map entries') := by
        simp [applyUpdateActions, hfold]
      have hplan : plan items (.update k expr conditions) = .ok (.put k (.map entries')) := by
        simp [plan, hget, hcond, hupd]
      refine Or.inl ⟨rfl, admitted_singleton hplan, ?_⟩
      intro key
      by_cases hk : k = key
      · subst hk
        simp [GuardedWrite.ops, plannedAt, hget, hupd, Except.toOption]
      · simp [GuardedWrite.ops, plannedAt, hk, FiniteMap.get?_insert_ne (Ne.symm hk)]
    · simp only [GuardedWrite.apply, heq] at h
      cases h
      exact Or.inr ⟨⟨_, rfl⟩, rfl⟩
  | transact ops =>
    by_cases hadm : Admitted items ops
    · obtain ⟨items₁, heq, hget⟩ := transact_of_admitted hadm
      cases heq.symm.trans h
      exact Or.inl ⟨rfl, hadm, hget⟩
    · obtain ⟨err, heq⟩ := transact_of_not_admitted hadm
      cases heq.symm.trans h
      exact Or.inr ⟨⟨_, rfl⟩, rfl⟩

/-- An admitted write finds its epoch on every item it is conditioned on. -/
theorem epochAt_of_admitted {ops : List Operation} {op : Operation} (h : Admitted items ops)
    (hop : op ∈ ops) (hcond : epochCondition e ∈ op.conditions) :
    epochAt items op.key = some (.u64 e) := by
  obtain ⟨step, hplan⟩ := h op hop
  have hall := checkConditions_eq_ok_iff.mp (conditions_of_plan hplan)
  exact checkCondition_epochCondition_iff.mp (hall _ hcond)

/-- The last write of the lease item decides the epoch a landed write leaves there. -/
theorem notBelow_of_keepsLease {ops : List Operation} {floor stored : Epoch}
    (hadm : Admitted items ops) (hkeeps : KeepsLease logId items floor ops)
    (hstored : epochAt items (leaseKey logId) = some (.u64 stored))
    (hle : floor.toNat ≤ stored.toNat) :
    ∃ e' : Epoch, attributeValue (ops.foldl (plannedAt items (leaseKey logId))
      (items.get? (leaseKey logId))) attrEpoch = some (.u64 e') ∧ floor.toNat ≤ e'.toNat := by
  rcases last_write (leaseKey logId) ops with hnone | ⟨pre, op, post, rfl, hwrites, hpost⟩
  · rw [foldl_plannedAt_of_not_writes hnone]
    exact ⟨stored, hstored, hle⟩
  · have hleaves := hkeeps pre op post rfl hwrites hpost
    obtain ⟨step, hplan⟩ := hadm op (by simp)
    rw [List.foldl_append, List.foldl_cons, foldl_plannedAt_of_not_writes hpost,
      ← plan_applyAt hplan]
    cases op with
    | put k v conditions =>
      obtain ⟨-, -, hok⟩ := Outcome.bind_eq_ok_iff.mp hplan
      cases hok
      cases hwrites
      simp only [PlannedWrite.applyAt, if_true]
      exact hleaves
    | update k expr conditions =>
      obtain ⟨-, -, hok⟩ := Outcome.bind_eq_ok_iff.mp hplan
      cases hwrites
      cases hget : items.get? (leaseKey logId) with
      | none => simp [hget] at hok
      | some existing =>
        simp only [hget] at hok
        obtain ⟨updated, hupd, hput⟩ := Outcome.bind_eq_ok_iff.mp hok
        cases hput
        simp only [PlannedWrite.applyAt, if_true]
        exact hleaves existing updated hget hupd
    | delete k conditions => exact absurd hleaves id
    | conditionCheck k conditions => exact absurd hwrites id

variable {w w' w₀ : World} {ev : FencedEvent} {events : List FencedEvent}

/-- The stored epoch is not below that of any claim so far. -/
def ClaimsStored (logId : LogId) (events : List FencedEvent) (items : Store) : Prop :=
  ∀ call c l, FencedEvent.lease (.claimWrite call c (.ok l)) ∈ events →
    ∃ stored : Epoch, epochAt items (leaseKey logId) = some (.u64 stored) ∧
      l.epoch.toNat ≤ stored.toNat

/-- An anchored write that lands finds the lease at its epoch. -/
theorem lease_of_lands (hstep : FencedStep logId w (.write e g (.ok ())) w')
    (hanch : Anchored logId events w.items (.write e g (.ok ()))) :
    epochAt w.items (leaseKey logId) = some (.u64 e) := by
  generalize hev : FencedEvent.write e g (.ok ()) = ev at hstep
  cases hstep with
  | lease h => cases hev
  | write hg =>
    obtain ⟨rfl, rfl, hresult⟩ := FencedEvent.write.inj hev
    rcases lands (Prod.mk.eta (p := g.apply w.items)).symm with
      ⟨-, hadm, -⟩ | ⟨⟨err, herr⟩, -⟩
    · obtain ⟨⟨op, hop, hkey, hcond⟩, -⟩ := hanch hadm
      rw [← hkey]
      exact epochAt_of_admitted hadm hop hcond
    · rw [herr] at hresult
      cases hresult

theorem epoch_of_decodeLease {key : Key} {entries : FiniteMap String Value} {l : Lease}
    (h : decodeLease ⟨key, .map entries⟩ = .ok l) :
    entries.get? attrEpoch = some (.u64 l.epoch) := by
  obtain ⟨region, -, h⟩ := Outcome.bind_eq_ok_iff.mp h
  obtain ⟨holder, -, h⟩ := Outcome.bind_eq_ok_iff.mp h
  obtain ⟨epoch, hepoch, h⟩ := Outcome.bind_eq_ok_iff.mp h
  obtain ⟨expiresAtMs, -, h⟩ := Outcome.bind_eq_ok_iff.mp h
  obtain ⟨expiresAt, -, h⟩ := Outcome.bind_eq_ok_iff.mp h
  cases h
  unfold requireU64 at hepoch
  split at hepoch
  · next n hget =>
    cases hepoch
    exact hget
  · cases hepoch
  · cases hepoch

/-- A successful claim leaves the epoch it returns on the lease item. -/
theorem epochAt_of_claimed {call : ℕ} {c : LeaseCoordinator} {l : Lease}
    (heff : Effect logId items (.claimWrite call c (.ok l)) items') :
    epochAt items' (leaseKey logId) = some (.u64 l.epoch) := by
  generalize hev : Event.claimWrite call c (.ok l) = ev at heff
  cases heff with
  | unchanged hgrant =>
    rw [← hev] at hgrant
    cases hgrant
  | acquired => cases hev
  | renewed => cases hev
  | claimed hv hepoch =>
    obtain ⟨rfl, rfl, hok⟩ := Event.claimWrite.inj hev
    rw [epochAt_insert_map, epoch_of_decodeLease hok.symm]

/-- What one anchored step does to the claims so far. -/
theorem claimsStored_step (hclaims : ClaimsStored logId events w.items)
    (hstep : FencedStep logId w ev w') (hanch : Anchored logId events w.items ev) :
    ClaimsStored logId (events ++ [ev]) w'.items := by
  intro call c l hmem
  rw [List.mem_append, List.mem_singleton] at hmem
  cases hstep with
  | lease hlease =>
    have heff := effect_of_step hlease
    rcases hmem with hbefore | hnow
    · obtain ⟨stored, hstored, hle⟩ := hclaims call c l hbefore
      obtain ⟨stored', hstored', hle'⟩ := epochLe_effect heff stored hstored
      exact ⟨stored', hstored', hle.trans hle'⟩
    · cases hnow
      exact ⟨l.epoch, epochAt_of_claimed heff, le_refl _⟩
  | @write e g hg =>
    rcases hmem with hbefore | hnow
    · obtain ⟨stored, hstored, hle⟩ := hclaims call c l hbefore
      rcases lands (Prod.mk.eta (p := g.apply w.items)).symm with
        ⟨-, hadm, hget⟩ | ⟨-, hsame⟩
      · obtain ⟨-, hkeeps⟩ := hanch hadm
        obtain ⟨e', he', hle'⟩ :=
          notBelow_of_keepsLease hadm (hkeeps call c l hbefore) hstored hle
        exact ⟨e', by rw [epochAt, hget, he'], hle'⟩
      · exact ⟨stored, by rw [hsame, hstored], hle⟩
    · cases hnow

theorem claimsStored_run (h : AnchoredRun logId w₀ events w) :
    ClaimsStored logId events w.items := by
  induction h with
  | refl =>
    intro call c l hmem
    cases hmem
  | snoc _ hstep hanch ih => exact claimsStored_step ih hstep hanch

theorem step_of_landed (hg : g.GuardedBy e) (hlanded : (g.apply w.items).1 = .ok ()) :
    FencedStep logId w (.write e g (.ok ())) { w with items := (g.apply w.items).2 } := by
  rw [← hlanded]
  exact .write hg

/-- Operations on other items are planned without the lease item. -/
theorem admitted_of_same {ops : List Operation} (h : Admitted items ops)
    (hkeys : ∀ op ∈ ops, op.key ≠ leaseKey logId)
    (hsame : ∀ key, key ≠ leaseKey logId → items'.get? key = items.get? key) :
    Admitted items' ops := by
  intro op hop
  obtain ⟨step, hplan⟩ := h op hop
  have hget := hsame op.key (hkeys op hop)
  refine ⟨step, ?_⟩
  rw [← hplan]
  cases op with
  | put k v conditions | update k expr conditions | delete k conditions
  | conditionCheck k conditions =>
    simp only [Operation.key] at hget
    simp only [plan, hget]

/-- A write whose operations are all admitted lands. -/
theorem lands_of_admitted (h : Admitted items g.ops) : (g.apply items).1 = .ok () := by
  cases g with
  | put k v conditions =>
    obtain ⟨step, hplan⟩ := h _ (List.mem_singleton_self _)
    have hcond := conditions_of_plan hplan
    simp only [Operation.key, Operation.conditions] at hcond
    rcases put_cases items k conditions v with ⟨-, heq⟩ | ⟨reason, heq⟩
    · exact congrArg Prod.fst heq
    · simp only [MemoryReplicatedKv.put, hcond] at heq
      cases heq
  | update k expr conditions =>
    obtain ⟨step, hplan⟩ := h _ (List.mem_singleton_self _)
    obtain ⟨⟨⟩, hcond, hok⟩ := Outcome.bind_eq_ok_iff.mp hplan
    cases hget : items.get? k with
    | none => simp [hget] at hok
    | some existing =>
      simp only [hget] at hok hcond
      obtain ⟨updated, hupd, -⟩ := Outcome.bind_eq_ok_iff.mp hok
      simp only [GuardedWrite.apply, atomicUpdate, hget, hcond, hupd]
  | transact ops =>
    obtain ⟨items', heq, -⟩ := transact_of_admitted h
    exact congrArg Prod.fst heq

/-- A lease that expired long ago, and the coordinator that takes it over. -/
def expiredLease (e : Epoch) : Value := encodeLease ⟨"us-east-1"⟩ ⟨"east/1"⟩ e 0

def successor (logId : LogId) : LeaseCoordinator := .new logId ⟨"west/1"⟩ ⟨"us-west-2"⟩

def takeoverOf (e : Epoch) (h : e.toNat + 1 < 2 ^ 64) : PendingClaim where
  observed := e
  nextEpoch := e + 1
  expiresAt := 120000
  nextEpoch_eq := by rw [UInt64.toNat_add, UInt64.toNat_one, Nat.mod_eq_of_lt h]

theorem claimRead_expired (h : e.toNat + 1 < 2 ^ 64)
    (hv : items.get? (leaseKey logId) = some (expiredLease e)) :
    (successor logId).claimRead items ⟨60 * 10 ^ 9⟩ = .ok (takeoverOf e h) := by
  have hnext : checkedNext e = .ok (e + 1) := if_pos h
  have hlease : (successor logId).readLease items =
      .ok ⟨⟨"us-east-1"⟩, ⟨"east/1"⟩, e, ⟨(0 : UInt64).toNat * 10 ^ 6⟩⟩ := by
    have hkey : (successor logId).key = leaseKey logId := rfl
    rw [LeaseCoordinator.readLease, MemoryReplicatedKv.get, hkey, hv]
    exact decodeLease_encodeLease (leaseKey logId)
  rw [LeaseCoordinator.claimRead, hlease, Outcome.ok_bind]
  simp only [toUnixMillis_millis]
  rw [if_neg (by decide)]
  split
  · next err herr =>
    rw [hnext] at herr
    cases herr
  · next next hok =>
    rw [hnext] at hok
    cases hok
    rfl

/-- A claim whose observed epoch is still stored lands. -/
theorem claimWrite_observed {c : LeaseCoordinator} {claim : PendingClaim} {r : Region}
    {h : HolderId} {x : UInt64}
    (hv : items.get? c.key = some (encodeLease r h claim.observed x)) :
    c.claimWrite items claim =
      (.ok ⟨c.region, c.identity, claim.nextEpoch, ⟨claim.expiresAt.toNat * 10 ^ 6⟩⟩,
        items.insert c.key (encodeLease c.region c.identity claim.nextEpoch claim.expiresAt)) := by
  have hcond : checkConditions (some (encodeLease r h claim.observed x))
      [epochCondition claim.observed] = .ok () := by
    rw [checkConditions_eq_ok_iff]
    simp only [List.mem_singleton, forall_eq]
    exact checkCondition_epochCondition_iff.mpr attributeValue_epoch
  have happly : applyUpdateActions (encodeLease r h claim.observed x)
      ⟨[.set attrEpoch (.u64 claim.nextEpoch), .set attrHolderId (.string c.identity.str),
        .set attrRegion (.string c.region.str), .set attrExpiresAt (.u64 claim.expiresAt)]⟩ =
        .ok (.map (takeover (leaseEntries r h claim.observed x) c.region c.identity
          claim.nextEpoch claim.expiresAt)) := rfl
  rw [LeaseCoordinator.claimWrite]
  simp only [MemoryReplicatedKv.atomicUpdate, hv, hcond, happly]
  rw [takeover_leaseEntries, ← encodeLease, decodeLease_encodeLease]

/-- Whatever is stored beside the lease, a claim can move it on from any epoch but the last. -/
theorem exists_takeover_from (logId : LogId) (items : Store) (h : e.toNat + 1 < 2 ^ 64) :
    ∃ w₀ events w v, (∀ key, key ≠ leaseKey logId → w₀.items.get? key = items.get? key) ∧
      Trace (FencedStep logId) w₀ events w ∧
      (∀ key, key ≠ leaseKey logId → w.items.get? key = items.get? key) ∧
      w.items.get? (leaseKey logId) = some v ∧
      attributeValue (some v) attrEpoch = some (.u64 (e + 1)) := by
  let before := items.insert (leaseKey logId) (expiredLease e)
  have hv : before.get? (leaseKey logId) = some (expiredLease e) := FiniteMap.get?_insert_self
  have hread : FencedStep logId ⟨before, fun _ => none⟩
      (.lease (.claimRead 0 (successor logId) ⟨60 * 10 ^ 9⟩ (.ok (takeoverOf e h)))) _ :=
    .lease (.claimRead _ rfl rfl (claimRead_expired h hv))
  have hwrite : FencedStep logId
      ⟨before, Function.update (fun _ => none) 0 (some (successor logId, takeoverOf e h))⟩
      (.lease (.claimWrite 0 (successor logId) _)) _ :=
    .lease (.claimWrite rfl rfl)
  have hlanded : (successor logId).claimWrite before (takeoverOf e h) = _ :=
    claimWrite_observed hv
  rw [hlanded] at hwrite
  refine ⟨_, _, _, _, ?_, .snoc (.snoc .refl hread) hwrite, ?_, FiniteMap.get?_insert_self,
    attributeValue_epoch⟩
  · intro key hkey
    exact FiniteMap.get?_insert_ne hkey
  · intro key hkey
    exact (FiniteMap.get?_insert_ne hkey).trans (FiniteMap.get?_insert_ne hkey)

/-- Every epoch has one to take over from that does not lead to it. -/
theorem exists_superseding (e : Epoch) : ∃ e₀ : Epoch, e₀.toNat + 1 < 2 ^ 64 ∧ e₀ + 1 ≠ e := by
  by_cases hlast : e.toNat + 1 < 2 ^ 64
  · refine ⟨e, hlast, ?_⟩
    intro heq
    have hnat := congrArg UInt64.toNat heq
    rw [UInt64.toNat_add, UInt64.toNat_one, Nat.mod_eq_of_lt hlast] at hnat
    omega
  · refine ⟨0, by decide, ?_⟩
    rintro rfl
    exact hlast (by decide)

/-- Fencing of guarded writes. In every run whose guarded writes are conditioned on the lease item,
and keep it, a write lands only while the lease sits at its epoch, and so never after a claim of a
higher one. A guarded write that leaves the lease item alone is not fenced: from any items on which
its conditions hold, there is a run with a takeover of the lease after which it lands. -/
theorem guarded_write_fenced (logId : LogId) :
    (∀ w₀ events w e g w', AnchoredRun logId w₀ events w →
      FencedStep logId w (.write e g (.ok ())) w' →
      Anchored logId events w.items (.write e g (.ok ())) → Fenced logId events w.items e) ∧
    ∀ (e : Epoch) (g : GuardedWrite) (items : Store), g.GuardedBy e →
      (∀ op ∈ g.ops, op.key ≠ leaseKey logId) → Admitted items g.ops →
      ∃ w₀ events w w', (∀ key, key ≠ leaseKey logId → w₀.items.get? key = items.get? key) ∧
        Trace (FencedStep logId) w₀ events w ∧ FencedStep logId w (.write e g (.ok ())) w' ∧
        ¬ Fenced logId events w.items e := by
  constructor
  · intro w₀ events w e g w' hrun hstep hanch
    have hstored := lease_of_lands hstep hanch
    refine ⟨hstored, ?_⟩
    intro call c l hmem
    obtain ⟨stored, hs, hle⟩ := claimsStored_run hrun call c l hmem
    rw [hstored, Option.some.injEq, Value.u64.injEq] at hs
    rwa [hs]
  · intro e g items hg hkeys hadm
    obtain ⟨e₀, h, hne⟩ := exists_superseding e
    obtain ⟨w₀, events, w, v, hbefore, hrun, hafter, hv, hepoch⟩ :=
      exists_takeover_from logId items h
    refine ⟨w₀, events, w, _, hbefore, hrun,
      step_of_landed hg (lands_of_admitted (admitted_of_same hadm hkeys hafter)), ?_⟩
    rintro ⟨hstored, -⟩
    rw [epochAt, hv, hepoch, Option.some.injEq, Value.u64.injEq] at hstored
    exact hne hstored

/-- The counter item of a log at epoch 1, and an allocation from it guarded by that epoch. -/
def counterKey : Key := ⟨"log#log-a/counter"⟩

def counterWorld : World where
  items := FiniteMap.empty.insert counterKey
    (.map (FiniteMap.ofList [("next_index", .u64 0), (attrEpoch, .u64 1)]))
  pending := fun _ => none

def allocate : GuardedWrite := .update counterKey ⟨[.increment "next_index" 1]⟩ [epochCondition 1]

theorem allocate_guarded : allocate.GuardedBy 1 :=
  ⟨⟨_, List.mem_singleton.mpr rfl, rfl⟩, _, List.mem_singleton.mpr rfl, List.mem_singleton.mpr rfl⟩

def eastHeld : World :=
  { counterWorld with items := (east.acquire counterWorld.items ⟨0⟩).2 }

/-- The claim by which the other region takes the lease over, in flight and landed. -/
def westClaim : PendingClaim := ⟨1, 2, 260000, rfl⟩

def westClaiming : World :=
  { eastHeld with pending := Function.update eastHeld.pending 0 (some (west, westClaim)) }

def westHeld : World where
  items := (west.claimWrite eastHeld.items westClaim).2
  pending := Function.update westClaiming.pending 0 none

theorem claimRead_eastHeld : west.claimRead eastHeld.items ⟨200 * 10 ^ 9⟩ = .ok westClaim := by
  decide +kernel

/-- An allocation with a check of the lease beside it. -/
def allocateChecked : GuardedWrite :=
  .transact [.update counterKey ⟨[.increment "next_index" 1]⟩ [],
    .conditionCheck (leaseKey sampleLog) [epochCondition 2]]

theorem allocateChecked_guarded : allocateChecked.GuardedBy 2 :=
  ⟨⟨_, List.mem_cons_self .., rfl⟩, .conditionCheck (leaseKey sampleLog) [epochCondition 2],
    by simp [allocateChecked, GuardedWrite.ops], List.mem_singleton.mpr rfl⟩

theorem allocateChecked_keeps (floor : Epoch) :
    KeepsLease sampleLog westHeld.items floor allocateChecked.ops := by
  intro pre op post hops hwrites
  have hop : op ∈ allocateChecked.ops := by
    rw [hops]
    simp
  simp only [allocateChecked, GuardedWrite.ops, List.mem_cons, List.not_mem_nil, or_false] at hop
  rcases hop with rfl | rfl
  · exact absurd hwrites (by decide)
  · exact hwrites.elim

/-- What led to the takeover. -/
def takeoverRun : List FencedEvent :=
  [.lease (.acquire east ⟨0⟩ (east.acquire counterWorld.items ⟨0⟩).1),
    .lease (.claimRead 0 west ⟨200 * 10 ^ 9⟩ (.ok westClaim)),
    .lease (.claimWrite 0 west (west.claimWrite eastHeld.items westClaim).1)]

theorem anchored_takeover : AnchoredRun sampleLog counterWorld takeoverRun westHeld := by
  have h₁ : FencedStep sampleLog counterWorld _ eastHeld := .lease (.acquire (c := east) ⟨0⟩ rfl)
  have h₂ : FencedStep sampleLog eastHeld _ westClaiming :=
    .lease (.claimRead _ rfl rfl claimRead_eastHeld)
  have h₃ : FencedStep sampleLog westClaiming _ westHeld := .lease (.claimWrite rfl rfl)
  exact .snoc (.snoc (.snoc .refl h₁ trivial) h₂ trivial) h₃ trivial

/-- The new holder's allocation is fenced at its epoch; one that reads the counter only is not. -/
theorem guarded_write_fenced_allocate :
    Fenced sampleLog takeoverRun westHeld.items 2 ∧
      ∃ w₀ events w w', (∀ key, key ≠ leaseKey sampleLog →
          w₀.items.get? key = counterWorld.items.get? key) ∧
        Trace (FencedStep sampleLog) w₀ events w ∧
        FencedStep sampleLog w (.write 1 allocate (.ok ())) w' ∧
        ¬ Fenced sampleLog events w.items 1 := by
  have hlanded : (allocateChecked.apply westHeld.items).1 = .ok () := by decide +kernel
  obtain ⟨hfenced, hunfenced⟩ := guarded_write_fenced sampleLog
  constructor
  · refine hfenced counterWorld _ _ 2 allocateChecked _ anchored_takeover
      (step_of_landed allocateChecked_guarded hlanded) ?_
    intro _
    exact ⟨⟨.conditionCheck (leaseKey sampleLog) [epochCondition 2],
      by simp [allocateChecked, GuardedWrite.ops], rfl, List.mem_singleton_self _⟩,
      fun _ _ l _ => allocateChecked_keeps l.epoch⟩
  · refine hunfenced 1 allocate counterWorld.items allocate_guarded ?_ ?_
    · intro op hop
      rw [List.mem_singleton.mp hop]
      decide
    · exact admitted_singleton (by rfl : _ = Except.ok (.put counterKey _))

/-- A run in which an allocation guarded by epoch 1 lands after the lease moved to epoch 2. -/
theorem superseded_write_lands :
    ¬ ∀ events w w' e g, Trace (FencedStep sampleLog) counterWorld events w →
      FencedStep sampleLog w (.write e g (.ok ())) w' → Fenced sampleLog events w.items e := by
  have hlanded : (allocate.apply westHeld.items).1 = .ok () := by decide +kernel
  have hstored : epochAt westHeld.items (leaseKey sampleLog) ≠ some (.u64 1) := by decide +kernel
  intro h
  have hfenced := h _ _ _ _ _ anchored_takeover.trace (step_of_landed allocate_guarded hlanded)
  exact hstored hfenced.1

end Coordination
