import MtcCa.Coordination.Operations
import MtcCa.Lib.Transition

/-! Every interleaving of lease operations by any number of coordinators. A claim in flight
keeps what it read; other operations may run before its write. -/
namespace Coordination

open Cloud Transition

/-- The store and the claims between their read and their write, by call. -/
structure World where
  items : Store
  pending : ℕ → Option (LeaseCoordinator × PendingClaim)

/-- One step of one coordinator, with its result. -/
inductive Event where
  | acquire (c : LeaseCoordinator) (now : SystemTime) (result : Except LeaseError Lease)
  | renew (c : LeaseCoordinator) (now : SystemTime) (epoch : Epoch)
      (result : Except LeaseError Lease)
  | claimRead (call : ℕ) (c : LeaseCoordinator) (now : SystemTime)
      (result : Except LeaseError PendingClaim)
  | claimWrite (call : ℕ) (c : LeaseCoordinator) (result : Except LeaseError Lease)

/-- The epoch that a successful acquire or claim returns. -/
def Event.grant : Event → Option Epoch
  | .acquire _ _ (.ok l) => some l.epoch
  | .claimWrite _ _ (.ok l) => some l.epoch
  | _ => none

/-- The operation failed. -/
def Event.Failed : Event → Prop
  | .acquire _ _ result => ∃ err, result = .error err
  | .renew _ _ _ result => ∃ err, result = .error err
  | .claimRead _ _ _ result => ∃ err, result = .error err
  | .claimWrite _ _ result => ∃ err, result = .error err

/-- The steps of coordinators of one log. -/
inductive Step (logId : LogId) : World → Event → World → Prop where
  | acquire {w : World} {c : LeaseCoordinator} (now : SystemTime) (hc : c.key = leaseKey logId) :
      Step logId w (.acquire c now (c.acquire w.items now).1)
        { w with items := (c.acquire w.items now).2 }
  | renew {w : World} {c : LeaseCoordinator} (now : SystemTime) (epoch : Epoch)
      (hc : c.key = leaseKey logId) :
      Step logId w (.renew c now epoch (c.renew w.items now epoch).1)
        { w with items := (c.renew w.items now epoch).2 }
  | claimRead {w : World} {c : LeaseCoordinator} {call : ℕ} {claim : PendingClaim}
      (now : SystemTime) (hc : c.key = leaseKey logId) (hfree : w.pending call = none)
      (hread : c.claimRead w.items now = .ok claim) :
      Step logId w (.claimRead call c now (.ok claim))
        { w with pending := Function.update w.pending call (some (c, claim)) }
  | claimReadFailed {w : World} {c : LeaseCoordinator} {call : ℕ} {err : LeaseError}
      (now : SystemTime) (hc : c.key = leaseKey logId) (hfree : w.pending call = none)
      (hread : c.claimRead w.items now = .error err) :
      Step logId w (.claimRead call c now (.error err)) w
  | claimWrite {w : World} {c : LeaseCoordinator} {call : ℕ} {claim : PendingClaim}
      (hc : c.key = leaseKey logId) (hpending : w.pending call = some (c, claim)) :
      Step logId w (.claimWrite call c (c.claimWrite w.items claim).1)
        { items := (c.claimWrite w.items claim).2
          pending := Function.update w.pending call none }

/-- No lease item yet, and no claim in flight. -/
def Initial (logId : LogId) (w : World) : Prop :=
  w.items.get? (leaseKey logId) = none ∧ ∀ call, w.pending call = none

/-- All that one step can do to the items: nothing, or one of three writes of the lease. -/
inductive Effect (logId : LogId) (items : Store) : Event → Store → Prop where
  | unchanged {ev : Event} (hgrant : ev.grant = none)
      (hrenew : ∀ c now e l, ev ≠ .renew c now e (.ok l)) : Effect logId items ev items
  | acquired {c : LeaseCoordinator} {now : SystemTime} {l : Lease} {y : UInt64}
      (habs : items.get? (leaseKey logId) = none) (hl : l.epoch = initialEpoch) :
      Effect logId items (.acquire c now (.ok l))
        (items.insert (leaseKey logId) (encodeLease c.region c.identity initialEpoch y))
  | renewed {c : LeaseCoordinator} {now : SystemTime} {e : Epoch}
      {entries : FiniteMap String Value} {y : UInt64}
      (hv : items.get? (leaseKey logId) = some (.map entries))
      (hepoch : entries.get? attrEpoch = some (.u64 e)) :
      Effect logId items
        (.renew c now e
          (decodeLease ⟨leaseKey logId, .map (entries.insert attrExpiresAt (.u64 y))⟩))
        (items.insert (leaseKey logId) (.map (entries.insert attrExpiresAt (.u64 y))))
  | claimed {c : LeaseCoordinator} {call : ℕ} {claim : PendingClaim}
      {entries : FiniteMap String Value}
      (hv : items.get? (leaseKey logId) = some (.map entries))
      (hepoch : entries.get? attrEpoch = some (.u64 claim.observed)) :
      Effect logId items
        (.claimWrite call c (decodeLease ⟨leaseKey logId,
          .map (takeover entries c.region c.identity claim.nextEpoch claim.expiresAt)⟩))
        (items.insert (leaseKey logId)
          (.map (takeover entries c.region c.identity claim.nextEpoch claim.expiresAt)))

variable {logId : LogId} {w w' : World} {ev : Event} {events later : List Event}

theorem effect_of_step (h : Step logId w ev w') : Effect logId w.items ev w'.items := by
  cases h with
  | @acquire c now hc =>
    rcases c.acquire_cases w.items now with ⟨habs, heq⟩ | heq
    · rw [heq, hc]
      rw [hc] at habs
      exact .acquired habs rfl
    · rw [heq]
      exact .unchanged rfl (by simp)
  | @renew c now e hc =>
    rcases c.renew_cases w.items now e with ⟨entries, hv, -, hepoch, heq⟩ | ⟨err, heq⟩
    · rw [heq, hc]
      rw [hc] at hv
      exact .renewed hv hepoch
    · rw [heq]
      exact .unchanged rfl (by simp)
  | claimRead now hc hfree hread => exact .unchanged rfl (by simp)
  | claimReadFailed now hc hfree hread => exact .unchanged rfl (by simp)
  | @claimWrite c call claim hc hpending =>
    rcases c.claimWrite_cases w.items claim with ⟨entries, hv, hepoch, heq⟩ | ⟨err, heq⟩
    · rw [heq, hc]
      rw [hc] at hv
      exact .claimed hv hepoch
    · rw [heq]
      exact .unchanged rfl (by simp)

/-- A claim that nothing interrupts is a run of the two steps of its call. -/
theorem claimLease_run {c : LeaseCoordinator} {call : ℕ} (now : SystemTime)
    (hc : c.key = leaseKey logId) (hfree : w.pending call = none) :
    ∃ events, Trace (Step logId) w events { w with items := (c.claimLease w.items now).2 } := by
  unfold LeaseCoordinator.claimLease
  cases hread : c.claimRead w.items now with
  | error err => exact ⟨_, .snoc .refl (.claimReadFailed now hc hfree hread)⟩
  | ok claim =>
    have hrun := Trace.snoc (.snoc .refl (Step.claimRead now hc hfree hread))
      (Step.claimWrite hc (Function.update_self ..))
    rw [Function.update_idem, ← hfree, Function.update_eq_self] at hrun
    exact ⟨_, hrun⟩

/-- The lease item is absent or an encoded lease. -/
def LeaseItem (logId : LogId) (items : Store) : Prop :=
  items.get? (leaseKey logId) = none ∨
    ∃ r h e x, items.get? (leaseKey logId) = some (encodeLease r h e x)

/-- A map at the lease key has exactly the four lease attributes. -/
theorem LeaseItem.entries_eq {items : Store} {entries : FiniteMap String Value}
    (hi : LeaseItem logId items) (hv : items.get? (leaseKey logId) = some (.map entries)) :
    ∃ r h e x, entries = leaseEntries r h e x := by
  rcases hi with habs | ⟨r, h, e, x, hi⟩
  · rw [habs] at hv
    cases hv
  · rw [hi, Option.some.injEq] at hv
    cases hv
    exact ⟨r, h, e, x, rfl⟩

theorem leaseItem_effect {items items' : Store} (heff : Effect logId items ev items')
    (hi : LeaseItem logId items) : LeaseItem logId items' := by
  cases heff with
  | unchanged => exact hi
  | acquired => exact Or.inr ⟨_, _, _, _, FiniteMap.get?_insert_self⟩
  | renewed hv hepoch =>
    obtain ⟨r, h, e, x, rfl⟩ := hi.entries_eq hv
    rw [leaseEntries_insert_expiresAt]
    exact Or.inr ⟨_, _, _, _, FiniteMap.get?_insert_self⟩
  | claimed hv hepoch =>
    obtain ⟨r, h, e, x, rfl⟩ := hi.entries_eq hv
    rw [takeover_leaseEntries]
    exact Or.inr ⟨_, _, _, _, FiniteMap.get?_insert_self⟩

theorem leaseItem_trace (hi : LeaseItem logId w.items) (h : Trace (Step logId) w events w') :
    LeaseItem logId w'.items :=
  h.invariant (P := fun w => LeaseItem logId w.items)
    (fun _ _ _ hstep hi => leaseItem_effect (effect_of_step hstep) hi) hi

theorem leaseItem_reachable {w₀ : World} (h₀ : Initial logId w₀)
    (h : Trace (Step logId) w₀ events w) : LeaseItem logId w.items :=
  leaseItem_trace (Or.inl h₀.1) h

theorem epochAt_insert_map {items : Store} {key : Key} {entries : FiniteMap String Value} :
    epochAt (items.insert key (.map entries)) key = entries.get? attrEpoch := by
  rw [epochAt, FiniteMap.get?_insert_self, attributeValue_map (by decide)]

theorem epochAt_of_get? {items : Store} {key : Key} {entries : FiniteMap String Value}
    (h : items.get? key = some (.map entries)) : epochAt items key = entries.get? attrEpoch := by
  rw [epochAt, h, attributeValue_map (by decide)]

theorem epochAt_of_absent {items : Store} {key : Key} (h : items.get? key = none) :
    epochAt items key = none := by
  rw [epochAt, h]
  rfl

/-- What one step does to the stored epoch: keep it, create the first one, or advance the
epoch a claim observed by one. -/
theorem epoch_effect {items items' : Store} (heff : Effect logId items ev items') :
    epochAt items' (leaseKey logId) = epochAt items (leaseKey logId) ∨
    (items.get? (leaseKey logId) = none ∧
      epochAt items' (leaseKey logId) = some (.u64 initialEpoch)) ∨
    ∃ claim : PendingClaim, epochAt items (leaseKey logId) = some (.u64 claim.observed) ∧
      epochAt items' (leaseKey logId) = some (.u64 claim.nextEpoch) := by
  cases heff with
  | unchanged => exact Or.inl rfl
  | acquired habs =>
    refine Or.inr (Or.inl ⟨habs, ?_⟩)
    rw [encodeLease, epochAt_insert_map, leaseEntries_epoch]
  | renewed hv hepoch =>
    left
    rw [epochAt_insert_map, epochAt_of_get? hv, FiniteMap.get?_insert_ne (by decide)]
  | @claimed c call claim entries hv hepoch =>
    exact Or.inr (Or.inr ⟨claim, by rw [epochAt_of_get? hv, hepoch],
      by rw [epochAt_insert_map, takeover_epoch]⟩)

/-- The stored epoch of `items'` is not below that of `items`. -/
def EpochLe (logId : LogId) (items items' : Store) : Prop :=
  ∀ e : Epoch, epochAt items (leaseKey logId) = some (.u64 e) →
    ∃ e' : Epoch, epochAt items' (leaseKey logId) = some (.u64 e') ∧ e.toNat ≤ e'.toNat

theorem epochLe_effect {items items' : Store} (heff : Effect logId items ev items') :
    EpochLe logId items items' := by
  intro e he
  rcases epoch_effect heff with hsame | ⟨habs, -⟩ | ⟨claim, hobs, hnext⟩
  · exact ⟨e, by rw [hsame, he], le_refl _⟩
  · rw [epochAt_of_absent habs] at he
    cases he
  · rw [he, Option.some.injEq, Value.u64.injEq] at hobs
    refine ⟨claim.nextEpoch, hnext, ?_⟩
    rw [claim.nextEpoch_eq, hobs]
    omega

theorem EpochLe.trans {items₁ items₂ items₃ : Store} (h : EpochLe logId items₁ items₂)
    (h' : EpochLe logId items₂ items₃) : EpochLe logId items₁ items₃ := by
  intro e he
  obtain ⟨e₂, he₂, hle⟩ := h e he
  obtain ⟨e₃, he₃, hle'⟩ := h' e₂ he₂
  exact ⟨e₃, he₃, le_trans hle hle'⟩

theorem epochLe_trace (h : Trace (Step logId) w events w') : EpochLe logId w.items w'.items :=
  h.invariant (P := fun u => EpochLe logId w.items u.items)
    (fun _ _ _ hstep hle => hle.trans (epochLe_effect (effect_of_step hstep)))
    (fun e he => ⟨e, he, le_refl _⟩)

/-- The epochs granted so far count up from one, and the last one is stored. -/
structure Granted (logId : LogId) (events : List Event) (items : Store) : Prop where
  counts : (events.filterMap Event.grant).map UInt64.toNat =
    List.range' 1 (events.filterMap Event.grant).length
  stored : (events.filterMap Event.grant = [] ∧ items.get? (leaseKey logId) = none) ∨
    ∃ e : Epoch, epochAt items (leaseKey logId) = some (.u64 e) ∧
      e.toNat = (events.filterMap Event.grant).length

theorem granted_of_none {items items' : Store} (h : Granted logId events items)
    (hgrant : ev.grant = none)
    (hsame : epochAt items' (leaseKey logId) = epochAt items (leaseKey logId))
    (habs : items.get? (leaseKey logId) = none → items'.get? (leaseKey logId) = none) :
    Granted logId (events ++ [ev]) items' := by
  have hgrants : (events ++ [ev]).filterMap Event.grant = events.filterMap Event.grant := by
    simp [List.filterMap_append, hgrant]
  refine ⟨by rw [hgrants]; exact h.counts, ?_⟩
  rw [hgrants]
  rcases h.stored with ⟨hnil, hnone⟩ | ⟨e, he, hlen⟩
  · exact Or.inl ⟨hnil, habs hnone⟩
  · exact Or.inr ⟨e, by rw [hsame, he], hlen⟩

theorem granted_of_some {items items' : Store} {e : Epoch} (h : Granted logId events items)
    (hgrant : ev.grant = some e) (hlen : e.toNat = (events.filterMap Event.grant).length + 1)
    (hstored : epochAt items' (leaseKey logId) = some (.u64 e)) :
    Granted logId (events ++ [ev]) items' := by
  have hgrants : (events ++ [ev]).filterMap Event.grant = events.filterMap Event.grant ++ [e] := by
    simp [List.filterMap_append, hgrant]
  constructor
  · rw [hgrants, List.map_append, h.counts, List.length_append, List.length_singleton,
      List.range'_concat]
    simp [hlen, Nat.add_comm]
  · rw [hgrants, List.length_append, List.length_singleton]
    exact Or.inr ⟨e, hstored, hlen⟩

theorem granted_effect {items items' : Store} (heff : Effect logId items ev items')
    (hi : LeaseItem logId items) (h : Granted logId events items) :
    Granted logId (events ++ [ev]) items' := by
  cases heff with
  | unchanged hgrant => exact granted_of_none h hgrant rfl id
  | @acquired c now l y habs hl =>
    rcases h.stored with ⟨hnil, -⟩ | ⟨e, he, -⟩
    · refine granted_of_some h rfl ?_ ?_
      · rw [hnil, hl]
        rfl
      · rw [encodeLease, epochAt_insert_map, leaseEntries_epoch, hl]
    · rw [epochAt_of_absent habs] at he
      cases he
  | @renewed c now e entries y hv hepoch =>
    refine granted_of_none h rfl ?_ ?_
    · rw [epochAt_insert_map, epochAt_of_get? hv, FiniteMap.get?_insert_ne (by decide)]
    · intro habs
      rw [habs] at hv
      cases hv
  | @claimed c call claim entries hv hepoch =>
    have hstored : claim.observed.toNat = (events.filterMap Event.grant).length := by
      rcases h.stored with ⟨-, hnone⟩ | ⟨e', he', hlen⟩
      · rw [hnone] at hv
        cases hv
      · rw [epochAt_of_get? hv, hepoch, Option.some.injEq, Value.u64.injEq] at he'
        rw [he', hlen]
    obtain ⟨r, holder, e, x, rfl⟩ := hi.entries_eq hv
    rw [takeover_leaseEntries]
    refine granted_of_some h (e := claim.nextEpoch) ?_ ?_ ?_
    · rw [← encodeLease, decodeLease_encodeLease]
      rfl
    · rw [claim.nextEpoch_eq, hstored]
    · rw [epochAt_insert_map, leaseEntries_epoch]

theorem granted_reachable {w₀ : World} (h₀ : Initial logId w₀)
    (h : Trace (Step logId) w₀ events w) : Granted logId events w.items := by
  have hboth := h.history (P := fun events w => LeaseItem logId w.items ∧
      Granted logId events w.items) ?_ ⟨Or.inl h₀.1, rfl, Or.inl ⟨rfl, h₀.1⟩⟩
  · exact hboth.2
  · intro events ev w w' hstep hw
    have heff := effect_of_step hstep
    exact ⟨leaseItem_effect heff hw.1, granted_effect heff hw.1 hw.2⟩

theorem failed_effect {items items' : Store} (heff : Effect logId items ev items')
    (hi : LeaseItem logId items) (hfailed : ev.Failed) : items' = items := by
  cases heff with
  | unchanged => rfl
  | acquired =>
    obtain ⟨err, herr⟩ := hfailed
    cases herr
  | renewed hv hepoch =>
    obtain ⟨r, h, e, x, rfl⟩ := hi.entries_eq hv
    obtain ⟨err, herr⟩ := hfailed
    rw [leaseEntries_insert_expiresAt, ← encodeLease, decodeLease_encodeLease] at herr
    cases herr
  | claimed hv hepoch =>
    obtain ⟨r, h, e, x, rfl⟩ := hi.entries_eq hv
    obtain ⟨err, herr⟩ := hfailed
    rw [takeover_leaseEntries, ← encodeLease, decodeLease_encodeLease] at herr
    cases herr

/-- A successful renewal finds its own epoch stored and writes the expiry alone. -/
theorem renewed_effect {items items' : Store} {c : LeaseCoordinator} {now : SystemTime} {e : Epoch}
    {l : Lease} (heff : Effect logId items (.renew c now e (.ok l)) items') :
    epochAt items (leaseKey logId) = some (.u64 e) ∧
      ∃ entries y, items.get? (leaseKey logId) = some (.map entries) ∧
        items' = items.insert (leaseKey logId) (.map (entries.insert attrExpiresAt (.u64 y))) := by
  generalize hev : Event.renew c now e (.ok l) = ev at heff
  cases heff with
  | unchanged hgrant hrenew => exact absurd hev.symm (hrenew c now e l)
  | acquired => cases hev
  | @renewed c' now' e' entries y hv hepoch =>
    obtain ⟨-, -, rfl, -⟩ := Event.renew.inj hev
    exact ⟨by rw [epochAt_of_get? hv, hepoch], entries, y, hv, rfl⟩
  | claimed => cases hev

/-- Once the stored epoch has passed `e`, every later renewal at `e` is told so. -/
theorem renew_superseded (hi : LeaseItem logId w.items) (h : Trace (Step logId) w later w')
    {e stored : Epoch} (hstored : epochAt w.items (leaseKey logId) = some (.u64 stored))
    (hlt : e.toNat < stored.toNat) {c : LeaseCoordinator} {now : SystemTime}
    {result : Except LeaseError Lease} (hmem : Event.renew c now e result ∈ later) :
    result = .error .lostLease := by
  obtain ⟨before, u, u', after, hbefore, hstep, -⟩ := h.exists_step_of_mem hmem
  obtain ⟨e', he', hle⟩ := epochLe_trace hbefore stored hstored
  rcases leaseItem_trace hi hbefore with habs | ⟨r, holder, e'', x, hv⟩
  · rw [epochAt_of_absent habs] at he'
    cases he'
  · rw [epochAt, hv, attributeValue_epoch, Option.some.injEq, Value.u64.injEq] at he'
    subst he'
    cases hstep with
    | renew _ _ hc =>
      rw [c.renew_lost (hc ▸ hv) (Or.inr ?_)]
      intro heq
      rw [heq] at hle
      omega

/-- Safety of the lease protocol under every interleaving. -/
theorem lease_protocol_safe {w₀ : World} (h₀ : Initial logId w₀)
    (h : Trace (Step logId) w₀ events w) :
    (w.items.get? (leaseKey logId) = none ∨ ∃ v lease, w.items.get? (leaseKey logId) = some v ∧
      decodeLease ⟨leaseKey logId, v⟩ = .ok lease) ∧
    (events.filterMap Event.grant).map UInt64.toNat =
      List.range' 1 (events.filterMap Event.grant).length ∧
    (∀ ev w', Step logId w ev w' →
      EpochLe logId w.items w'.items ∧
      (∀ c now e l, ev = .renew c now e (.ok l) →
        epochAt w.items (leaseKey logId) = some (.u64 e) ∧
        ∃ entries y, w.items.get? (leaseKey logId) = some (.map entries) ∧
          w'.items = w.items.insert (leaseKey logId)
            (.map (entries.insert attrExpiresAt (.u64 y)))) ∧
      (ev.Failed → w'.items = w.items)) ∧
    (∀ e stored : Epoch, epochAt w.items (leaseKey logId) = some (.u64 stored) →
      e.toNat < stored.toNat → ∀ later w', Trace (Step logId) w later w' →
      ∀ c now result, Event.renew c now e result ∈ later → result = .error .lostLease) := by
  have hi := leaseItem_reachable h₀ h
  refine ⟨?_, (granted_reachable h₀ h).counts, ?_, ?_⟩
  · rcases hi with habs | ⟨r, holder, e, x, hv⟩
    · exact Or.inl habs
    · exact Or.inr ⟨_, _, hv, decodeLease_encodeLease _⟩
  · intro ev w' hstep
    have heff := effect_of_step hstep
    refine ⟨epochLe_effect heff, ?_, failed_effect heff hi⟩
    rintro c now e l rfl
    exact renewed_effect heff
  · intro e stored hstored hlt later w' hlater c now result hmem
    exact renew_superseded hi hlater hstored hlt hmem

/-- A log with two coordinators to run on. -/
def sampleLog : LogId := ⟨"log-a", by decide⟩

def east : LeaseCoordinator := .new sampleLog ⟨"east/1"⟩ ⟨"us-east-1"⟩

def west : LeaseCoordinator := .new sampleLog ⟨"west/1"⟩ ⟨"us-west-2"⟩

/-- The lease that east acquires, and the claim and lease with which west takes it over. -/
def eastLease : Lease := ⟨⟨"us-east-1"⟩, ⟨"east/1"⟩, 1, ⟨60 * 10 ^ 9⟩⟩

theorem toNat_expiredClaim : (2 : Epoch).toNat = (1 : Epoch).toNat + 1 := rfl

def expiredClaim : PendingClaim := ⟨1, 2, 180000, toNat_expiredClaim⟩

def westLease : Lease := ⟨⟨"us-west-2"⟩, ⟨"west/1"⟩, 2, ⟨180 * 10 ^ 9⟩⟩

/-- West takes over the lease that east acquired, and east's renewal finds it lost. -/
theorem lease_protocol_safe_takeover :
    (east.renew (west.claimWrite (east.acquire .empty ⟨0⟩).2 expiredClaim).2 ⟨131 * 10 ^ 9⟩ 1).1 =
      .error .lostLease := by
  have hread : west.claimRead (east.acquire .empty ⟨0⟩).2 ⟨120 * 10 ^ 9⟩ = .ok expiredClaim := by
    decide +kernel
  have hstored : epochAt (west.claimWrite (east.acquire .empty ⟨0⟩).2 expiredClaim).2
      (leaseKey sampleLog) = some (.u64 2) := by
    decide +kernel
  have hacquires : Step sampleLog ⟨.empty, fun _ => none⟩ (.acquire east ⟨0⟩ _) _ :=
    .acquire ⟨0⟩ rfl
  have hclaims : Step sampleLog ⟨(east.acquire .empty ⟨0⟩).2, fun _ => none⟩
      (.claimRead 0 west ⟨120 * 10 ^ 9⟩ (.ok expiredClaim)) _ := .claimRead _ rfl rfl hread
  have hwrites : Step sampleLog ⟨(east.acquire .empty ⟨0⟩).2,
      Function.update (fun _ => none) 0 (some (west, expiredClaim))⟩ (.claimWrite 0 west _) _ :=
    .claimWrite rfl rfl
  have hrun := Trace.snoc (.snoc (.snoc .refl hacquires) hclaims) hwrites
  obtain ⟨-, -, -, hlost⟩ := lease_protocol_safe ⟨FiniteMap.get?_empty, fun _ => rfl⟩ hrun
  exact hlost 1 2 hstored (by decide) _ _ (.snoc .refl (.renew (c := east) ⟨131 * 10 ^ 9⟩ 1 rfl))
    east _ _ (List.mem_singleton_self _)

end Coordination
