import MtcCa.Coordination.Protocol

/-! What each lease operation does, on a store without the lease item and on a store whose
lease item is an encoded lease. -/
namespace Coordination

open Cloud

variable {items : Store} {c : LeaseCoordinator} {r : Region} {h : HolderId} {e : Epoch}
  {x : UInt64} {now : SystemTime}

/-- The expiry of a lease written by a coordinator that reads the clock at `now`. -/
def expiryFrom (now : SystemTime) : UInt64 :=
  saturatingAdd (toUnixMillis now) (durationMillis leaseTtl)

theorem leaseEntries_get? (k : String) :
    (leaseEntries r h e x).get? k =
      if k = attrExpiresAt then some (.u64 x)
      else if k = attrEpoch then some (.u64 e)
      else if k = attrHolderId then some (.string h.str)
      else if k = attrRegion then some (.string r.str)
      else none := by
  simp [leaseEntries, FiniteMap.ofList, FiniteMap.get?_insert]

theorem leaseEntries_region : (leaseEntries r h e x).get? attrRegion = some (.string r.str) := by
  rw [leaseEntries_get?]
  simp [attrRegion, attrExpiresAt, attrEpoch, attrHolderId]

theorem leaseEntries_holder :
    (leaseEntries r h e x).get? attrHolderId = some (.string h.str) := by
  rw [leaseEntries_get?]
  simp [attrExpiresAt, attrEpoch, attrHolderId]

theorem leaseEntries_epoch : (leaseEntries r h e x).get? attrEpoch = some (.u64 e) := by
  rw [leaseEntries_get?]
  simp [attrExpiresAt, attrEpoch]

theorem leaseEntries_expiresAt : (leaseEntries r h e x).get? attrExpiresAt = some (.u64 x) := by
  rw [leaseEntries_get?, if_pos rfl]

theorem leaseEntries_insert_expiresAt (y : UInt64) :
    (leaseEntries r h e x).insert attrExpiresAt (.u64 y) = leaseEntries r h e y := by
  apply FiniteMap.ext
  intro k
  rw [FiniteMap.get?_insert, leaseEntries_get?, leaseEntries_get?]
  split <;> rfl

/-- The attributes a takeover leaves. -/
def takeover (entries : FiniteMap String Value) (r : Region) (h : HolderId) (e : Epoch)
    (y : UInt64) : FiniteMap String Value :=
  (((entries.insert attrEpoch (.u64 e)).insert attrHolderId (.string h.str)).insert attrRegion
    (.string r.str)).insert attrExpiresAt (.u64 y)

theorem takeover_epoch {entries : FiniteMap String Value} (y : UInt64) :
    (takeover entries r h e y).get? attrEpoch = some (.u64 e) := by
  simp [takeover, FiniteMap.get?_insert, attrRegion, attrExpiresAt, attrEpoch, attrHolderId]

/-- A takeover of an encoded lease leaves an encoded lease. -/
theorem takeover_leaseEntries (r' : Region) (h' : HolderId) (e' : Epoch) (y : UInt64) :
    takeover (leaseEntries r h e x) r' h' e' y = leaseEntries r' h' e' y := by
  apply FiniteMap.ext
  intro k
  simp only [takeover, FiniteMap.get?_insert, leaseEntries_get?]
  by_cases hx : k = attrExpiresAt
  · simp only [hx, if_true]
  by_cases hr : k = attrRegion
  · subst hr
    simp [attrRegion, attrExpiresAt, attrEpoch, attrHolderId]
  by_cases hh : k = attrHolderId
  · subst hh
    simp [attrRegion, attrExpiresAt, attrEpoch, attrHolderId]
  by_cases he : k = attrEpoch
  · subst he
    simp [attrRegion, attrExpiresAt, attrEpoch, attrHolderId]
  simp only [if_neg hx, if_neg hr, if_neg hh, if_neg he]

theorem fromUnixMillis_eq (x : UInt64) : fromUnixMillis x = some ⟨x.toNat * 10 ^ 6⟩ := by
  have := x.toNat_lt
  rw [fromUnixMillis, if_pos (by omega)]

theorem toUnixMillis_millis (x : UInt64) : toUnixMillis ⟨x.toNat * 10 ^ 6⟩ = x := by
  have hdiv : ((x.toNat : ℤ) * 10 ^ 6 / 10 ^ 6).toNat = x.toNat := by omega
  rw [toUnixMillis, if_neg (by simp), hdiv]
  exact UInt64.toNat_inj.mp (Saturating.toNat_saturate_of_lt x.toNat_lt)

theorem toUnixMillis_mono {t t' : SystemTime} (h : t ≤ t') : toUnixMillis t ≤ toUnixMillis t' := by
  have hnanos : t.nanos ≤ t'.nanos := h
  unfold toUnixMillis
  split
  · exact UInt64.le_iff_toNat_le.mpr (Nat.zero_le _)
  · rw [if_neg (by omega)]
    exact Saturating.saturate_mono (by omega)

theorem representable_eq (x : UInt64) : representable x = .ok ⟨x.toNat * 10 ^ 6⟩ := by
  rw [representable, fromUnixMillis_eq]

theorem decodeLease_encodeLease (key : Key) :
    decodeLease ⟨key, encodeLease r h e x⟩ = .ok ⟨r, h, e, ⟨x.toNat * 10 ^ 6⟩⟩ := by
  simp only [decodeLease, encodeLease, requireString, requireU64, leaseEntries_region,
    leaseEntries_holder, leaseEntries_epoch, leaseEntries_expiresAt, representable_eq,
    Outcome.ok_bind]

/-- The epoch attribute of the item at a key. -/
def epochAt (items : Store) (key : Key) : Option Value :=
  attributeValue (items.get? key) attrEpoch

theorem attributeValue_map {entries : FiniteMap String Value} {attr : String}
    (hattr : attr.isEmpty = false) :
    attributeValue (some (.map entries)) attr = entries.get? attr := by
  simp [attributeValue, hattr]

theorem attributeValue_epoch :
    attributeValue (some (encodeLease r h e x)) attrEpoch = some (.u64 e) := by
  rw [encodeLease, attributeValue_map (by decide), leaseEntries_epoch]

theorem attributeValue_holder :
    attributeValue (some (encodeLease r h e x)) attrHolderId = some (.string h.str) := by
  rw [encodeLease, attributeValue_map (by decide), leaseEntries_holder]

/-- The epoch condition holds of an item exactly when it carries that epoch. -/
theorem checkCondition_epochCondition_iff {value : Option Value} :
    checkCondition value (epochCondition e) = .ok () ↔
      attributeValue value attrEpoch = some (.u64 e) :=
  checkCondition_attributeEquals_iff

namespace LeaseCoordinator

/-- Acquiring inserts a fresh lease where there is no item, and else changes nothing. -/
theorem acquire_cases (c : LeaseCoordinator) (items : Store) (now : SystemTime) :
    (items.get? c.key = none ∧ c.acquire items now =
      (.ok ⟨c.region, c.identity, initialEpoch, ⟨(expiryFrom now).toNat * 10 ^ 6⟩⟩,
        items.insert c.key (encodeLease c.region c.identity initialEpoch (expiryFrom now)))) ∨
    c.acquire items now = (.error .leaseHeld, items) := by
  unfold acquire
  cases hget : items.get? c.key with
  | none =>
    refine Or.inl ⟨rfl, ?_⟩
    simp only [MemoryReplicatedKv.put, hget, checkConditions_cons, checkCondition, ownLease,
      representable_eq, Outcome.ok_bind]
    rfl
  | some v =>
    right
    simp only [MemoryReplicatedKv.put, hget, checkConditions_cons, checkCondition]
    rfl

/-- A renewal that lands found the caller's identity and epoch and sets the expiry alone. -/
theorem renew_cases (c : LeaseCoordinator) (items : Store) (now : SystemTime) (e : Epoch) :
    (∃ entries, items.get? c.key = some (.map entries) ∧
      entries.get? attrHolderId = some (.string c.identity.str) ∧
      entries.get? attrEpoch = some (.u64 e) ∧
      c.renew items now e =
        (decodeLease ⟨c.key, .map (entries.insert attrExpiresAt (.u64 (expiryFrom now)))⟩,
          items.insert c.key (.map (entries.insert attrExpiresAt (.u64 (expiryFrom now)))))) ∨
    ∃ err, c.renew items now e = (.error err, items) := by
  unfold renew
  rw [← expiryFrom]
  rcases MemoryReplicatedKv.atomicUpdate_cases items c.key
      [.attributeEquals attrHolderId (.string c.identity.str), epochCondition e]
      ⟨[.set attrExpiresAt (.u64 (expiryFrom now))]⟩
    with ⟨entries, entries', hget, hcond, hfold, hupd⟩ | ⟨err, hupd⟩
  · rw [checkConditions_eq_ok_iff] at hcond
    have hholder := checkCondition_attributeEquals_iff.mp (hcond _ (List.mem_cons_self ..))
    have hepoch := checkCondition_epochCondition_iff.mp
      (hcond _ (List.mem_cons_of_mem _ (List.mem_cons_self ..)))
    rw [attributeValue_map (by decide)] at hholder hepoch
    cases hfold
    exact Or.inl ⟨entries, hget, hholder, hepoch, by simp only [hupd]⟩
  · right
    simp only [hupd]
    cases err <;> exact ⟨_, rfl⟩

/-- A claim that lands found its observed epoch and replaces all four attributes. -/
theorem claimWrite_cases (c : LeaseCoordinator) (items : Store) (claim : PendingClaim) :
    (∃ entries, items.get? c.key = some (.map entries) ∧
      entries.get? attrEpoch = some (.u64 claim.observed) ∧
      c.claimWrite items claim =
        (decodeLease ⟨c.key, .map (takeover entries c.region c.identity claim.nextEpoch
            claim.expiresAt)⟩,
          items.insert c.key (.map (takeover entries c.region c.identity claim.nextEpoch
            claim.expiresAt)))) ∨
    ∃ err, c.claimWrite items claim = (.error err, items) := by
  unfold claimWrite
  rcases MemoryReplicatedKv.atomicUpdate_cases items c.key [epochCondition claim.observed]
      ⟨[.set attrEpoch (.u64 claim.nextEpoch), .set attrHolderId (.string c.identity.str),
        .set attrRegion (.string c.region.str), .set attrExpiresAt (.u64 claim.expiresAt)]⟩
    with ⟨entries, entries', hget, hcond, hfold, hupd⟩ | ⟨err, hupd⟩
  · rw [checkConditions_eq_ok_iff] at hcond
    have hepoch := checkCondition_epochCondition_iff.mp (hcond _ (List.mem_cons_self ..))
    rw [attributeValue_map (by decide)] at hepoch
    cases hfold
    exact Or.inl ⟨entries, hget, hepoch, by simp only [hupd]; rfl⟩
  · right
    simp only [hupd]
    cases err <;> exact ⟨_, rfl⟩

/-- A renewal under another identity or epoch than the stored lease's finds the lease lost. -/
theorem renew_lost {epoch : Epoch} (hv : items.get? c.key = some (encodeLease r h e x))
    (hne : h ≠ c.identity ∨ e ≠ epoch) :
    c.renew items now epoch = (.error .lostLease, items) := by
  cases hcond : checkConditions (some (encodeLease r h e x))
      [.attributeEquals attrHolderId (.string c.identity.str), epochCondition epoch] with
  | error err =>
    obtain ⟨reason, rfl⟩ := checkConditions_error hcond
    simp only [renew, MemoryReplicatedKv.atomicUpdate, hv, hcond]
  | ok u =>
    rw [checkConditions_eq_ok_iff] at hcond
    have hholder := checkCondition_attributeEquals_iff.mp (hcond _ (List.mem_cons_self ..))
    have hepoch := checkCondition_epochCondition_iff.mp
      (hcond _ (List.mem_cons_of_mem _ (List.mem_cons_self ..)))
    rw [attributeValue_holder, Option.some.injEq, Value.string.injEq] at hholder
    rw [attributeValue_epoch, Option.some.injEq, Value.u64.injEq] at hepoch
    rcases hne with hne | hne
    · exact absurd (congrArg HolderId.mk hholder) hne
    · exact absurd hepoch hne

theorem claimRead_absent (habs : items.get? c.key = none) :
    c.claimRead items now = .error (.noLease c.key.str) := by
  have hlease : c.readLease items = .error (.noLease c.key.str) := by
    simp only [readLease, MemoryReplicatedKv.get, habs]
  rw [claimRead, hlease, Outcome.error_bind]

/-- A claim that goes on saw an expired lease: its epoch is the stored one, and the stored
expiry and the margin had passed on the clock it read. -/
theorem claimRead_eq_ok {claim : PendingClaim}
    (hv : items.get? c.key = some (encodeLease r h e x))
    (hread : c.claimRead items now = .ok claim) :
    claim.observed = e ∧ claim.expiresAt = expiryFrom now ∧
      saturatingAdd x (durationMillis takeoverSafetyMargin) ≤ toUnixMillis now := by
  have hlease : c.readLease items = .ok ⟨r, h, e, ⟨x.toNat * 10 ^ 6⟩⟩ := by
    rw [readLease, MemoryReplicatedKv.get, hv]
    exact decodeLease_encodeLease c.key
  rw [claimRead, hlease, Outcome.ok_bind] at hread
  simp only [toUnixMillis_millis] at hread
  split at hread
  · cases hread
  case isFalse heligible =>
    rw [takeoverEligibleMillis, decide_eq_true_eq, not_not] at heligible
    split at hread
    · cases hread
    · cases hread
      exact ⟨rfl, by rw [expiryFrom], heligible⟩

end LeaseCoordinator

end Coordination
