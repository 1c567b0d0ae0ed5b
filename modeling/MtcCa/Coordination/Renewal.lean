import MtcCa.Coordination.Takeover

/-! A primary that renews in time keeps its lease. A challenger judges with a clock reading taken
after its read, so both the time since the last renewal and that delay count. -/
namespace Coordination

open Cloud Transition

variable {logId : LogId} {w w' : World} {s s' s₀ : TimedWorld} {e : TimedEvent}
  {history : List TimedEvent} {c : LeaseCoordinator} {items : Store} {r : Region} {h : HolderId}
  {epoch : Epoch} {x : UInt64} {t now : SystemTime} {period delay : ℕ}

/-- A step that renews the lease of `holder` at `epoch`. -/
def Event.RenewalOf (holder : HolderId) (epoch : Epoch) : Event → Prop
  | .renew d _ epoch' _ => d.identity = holder ∧ epoch' = epoch
  | _ => False

instance (holder : HolderId) (epoch : Epoch) (ev : Event) :
    Decidable (ev.RenewalOf holder epoch) :=
  match ev with
  | .renew .. => inferInstanceAs (Decidable (_ ∧ _))
  | .acquire .. | .claimRead .. | .claimWrite .. => inferInstanceAs (Decidable False)

/-- When the lease of `holder` was last renewed, or `t₀` when it has not been since. -/
def lastRenewal (holder : HolderId) (epoch : Epoch) (t₀ : SystemTime)
    (history : List TimedEvent) : SystemTime :=
  history.foldl (fun last e => if e.2.RenewalOf holder epoch then e.1 else last) t₀

theorem lastRenewal_concat (holder : HolderId) (epoch : Epoch) (t₀ : SystemTime) :
    lastRenewal holder epoch t₀ (history ++ [e]) =
      if e.2.RenewalOf holder epoch then e.1 else lastRenewal holder epoch t₀ history := by
  rw [lastRenewal, List.foldl_append]
  rfl

/-- Whenever a challenger reads the lease, the last renewal is at most `period` old, and its
clock reading follows within `delay`, before the end of the millisecond range. -/
def Punctual (holder : HolderId) (epoch : Epoch) (period delay : ℕ) (t₀ : SystemTime)
    (history : List TimedEvent) : Prop :=
  ∀ (before after : List TimedEvent) (t now : SystemTime) (call : ℕ) (d : LeaseCoordinator)
    (result : Except LeaseError PendingClaim),
    history = before ++ (t, .claimRead call d now result) :: after →
      t.nanos ≤ (lastRenewal holder epoch t₀ before).nanos + period ∧
      now.nanos ≤ t.nanos + delay ∧ now.nanos < (2 ^ 64 - 1) * 10 ^ 6

theorem Punctual.of_append {t₀ : SystemTime} {more : List TimedEvent}
    (hp : Punctual h epoch period delay t₀ (history ++ more)) :
    Punctual h epoch period delay t₀ history := by
  intro before after t now call d result heq
  exact hp before (after ++ more) t now call d result (by rw [heq]; simp)

/-- The lease is stored for `c` at `epoch`, renewed at `last`, and no claim in flight has seen
this epoch. -/
structure Held (logId : LogId) (c : LeaseCoordinator) (epoch : Epoch) (last : SystemTime)
    (w : World) : Prop where
  stored : w.items.get? (leaseKey logId) =
    some (encodeLease c.region c.identity epoch (expiryFrom last))
  below : ∀ call d claim, w.pending call = some (d, claim) → claim.observed.toNat < epoch.toNat

/-- The arithmetic of rounding two instants down to milliseconds. -/
theorem millis_lt {last now : ℤ} {y : ℕ} (hgap : now ≤ last + (period + delay : ℕ))
    (hrange : now < (2 ^ 64 - 1) * 10 ^ 6) (hfit : period + delay + 10 ^ 6 ≤ 120 * 10 ^ 9)
    (hy : y ≤ (now / 10 ^ 6).toNat) :
    y < min (min (min (last / 10 ^ 6).toNat (2 ^ 64 - 1) + 60000) (2 ^ 64 - 1) + 60000)
      (2 ^ 64 - 1) := by
  omega

/-- A lease renewed recently enough has not expired by the margin on a reading that follows. -/
theorem not_expired {last : SystemTime} (ht : t.nanos ≤ last.nanos + period)
    (hnow : now.nanos ≤ t.nanos + delay) (hrange : now.nanos < (2 ^ 64 - 1) * 10 ^ 6)
    (hfit : period + delay + 10 ^ 6 ≤ leaseTtl.nanos + takeoverSafetyMargin.nanos) :
    ¬ saturatingAdd (expiryFrom last) (durationMillis takeoverSafetyMargin) ≤
      toUnixMillis now := by
  have hexpiry : (expiryFrom last).toNat =
      min ((toUnixMillis last).toNat + 60000) (2 ^ 64 - 1) := Saturating.toNat_saturatingAdd _ _
  have hlast : (toUnixMillis last).toNat = min (last.nanos / 10 ^ 6).toNat (2 ^ 64 - 1) := by
    unfold toUnixMillis
    split
    · rw [Int.toNat_of_nonpos (by omega)]
      rfl
    · exact Saturating.toNat_saturate _
  have hnow' : (toUnixMillis now).toNat ≤ (now.nanos / 10 ^ 6).toNat := by
    unfold toUnixMillis
    split
    · exact Nat.zero_le _
    · rw [Saturating.toNat_saturate]
      exact min_le_left _ _
  have hmargin : (durationMillis takeoverSafetyMargin).toNat = 60000 := rfl
  rw [UInt64.le_iff_toNat_le, Saturating.toNat_saturatingAdd, hexpiry, hlast, hmargin, not_le]
  exact millis_lt (by push_cast; linarith) hrange hfit hnow'

/-- A renewal under the stored identity and epoch is granted. -/
theorem LeaseCoordinator.renew_held {d : LeaseCoordinator}
    (hv : items.get? d.key = some (encodeLease r d.identity epoch x)) :
    (d.renew items now epoch).1 =
      .ok ⟨r, d.identity, epoch, ⟨(expiryFrom now).toNat * 10 ^ 6⟩⟩ := by
  have hcond : checkConditions (some (encodeLease r d.identity epoch x))
      [.attributeEquals attrHolderId (.string d.identity.str), epochCondition epoch] = .ok () := by
    rw [checkConditions_eq_ok_iff]
    simp only [List.mem_cons, List.not_mem_nil, or_false, forall_eq_or_imp, forall_eq]
    exact ⟨checkCondition_attributeEquals_iff.mpr attributeValue_holder,
      checkCondition_epochCondition_iff.mpr attributeValue_epoch⟩
  have happly : applyUpdateActions (encodeLease r d.identity epoch x)
      ⟨[.set attrExpiresAt (.u64 (expiryFrom now))]⟩ =
        .ok (.map ((leaseEntries r d.identity epoch x).insert attrExpiresAt
          (.u64 (expiryFrom now)))) := rfl
  rw [renew, ← expiryFrom]
  simp only [MemoryReplicatedKv.atomicUpdate, hv, hcond, happly]
  rw [leaseEntries_insert_expiresAt, ← encodeLease]
  exact decodeLease_encodeLease d.key

/-- A claim that finds the lease unexpired is turned away. -/
theorem LeaseCoordinator.claimRead_held {d : LeaseCoordinator}
    (hv : items.get? d.key = some (encodeLease r h epoch x))
    (hfresh : ¬ saturatingAdd x (durationMillis takeoverSafetyMargin) ≤ toUnixMillis now) :
    d.claimRead items now = .error .leaseHeld := by
  have hlease : d.readLease items = .ok ⟨r, h, epoch, ⟨x.toNat * 10 ^ 6⟩⟩ := by
    rw [readLease, MemoryReplicatedKv.get, hv]
    exact decodeLease_encodeLease d.key
  rw [claimRead, hlease, Outcome.ok_bind]
  simp only [toUnixMillis_millis]
  rw [if_pos (by rwa [takeoverEligibleMillis, decide_eq_true_eq])]

/-- What a renewal of the lease of `c` leaves behind. -/
theorem Held.renewed {last : SystemTime} (hheld : Held logId c epoch last s.world)
    (hstep : TimedStep logId s e s') (hren : e.2.RenewalOf c.identity epoch) :
    ∃ l, e.2.lease = some l ∧ l.holderId = c.identity ∧ l.epoch = epoch ∧
      s'.world.items.get? (leaseKey logId) =
        some (encodeLease c.region c.identity epoch (expiryFrom e.1)) := by
  have hv := hheld.stored
  have heff := leaseEffect_of_step (Or.inr ⟨_, _, _, _, hv⟩) hstep.step
  generalize s'.world.items = items' at heff
  cases hstep with
  | acquire => exact absurd hren id
  | claimRead => exact absurd hren id
  | claimWrite => exact absurd hren id
  | @renew w' t d epoch' result hclock hst =>
    obtain ⟨hid, rfl⟩ := hren
    cases heff with
    | kept hlease =>
      cases hst with
      | renew _ _ hd =>
        have hv' : s.world.items.get? d.key =
            some (encodeLease c.region d.identity epoch' (expiryFrom last)) := by
          rw [hd, hid, hv]
        rw [LeaseCoordinator.renew_held hv'] at hlease
        cases hlease
    | renewed hv' =>
      rw [hv, Option.some.injEq] at hv'
      obtain ⟨rfl, -, -⟩ := encodeLease_inj hv'
      exact ⟨_, rfl, hid, rfl, by rw [hid]; exact FiniteMap.get?_insert_self⟩

/-- Any other step leaves the stored lease alone and hands out none. -/
theorem Held.kept {last : SystemTime} (hheld : Held logId c epoch last s.world)
    (hstep : TimedStep logId s e s') (hren : ¬ e.2.RenewalOf c.identity epoch) :
    e.2.lease = none ∧ s'.world.items.get? (leaseKey logId) =
      some (encodeLease c.region c.identity epoch (expiryFrom last)) := by
  have hv := hheld.stored
  have heff := leaseEffect_of_step (Or.inr ⟨_, _, _, _, hv⟩) hstep.step
  generalize s'.world.items = items' at heff
  generalize hev : e.2 = ev at heff hren
  cases heff with
  | kept hlease => exact ⟨hlease, hv⟩
  | acquired habs =>
    rw [habs] at hv
    cases hv
  | renewed hv' =>
    rw [hv, Option.some.injEq] at hv'
    obtain ⟨-, hid, rfl, -⟩ := encodeLease_inj hv'
    exact absurd ⟨hid.symm, rfl⟩ hren
  | claimed hpending hv' =>
    rw [hv, Option.some.injEq] at hv'
    obtain ⟨-, -, hobs, -⟩ := encodeLease_inj hv'
    have hlt := hheld.below _ _ _ hpending
    rw [← hobs] at hlt
    omega

/-- No claim goes on past a read that is punctual. -/
theorem Held.below_step {last : SystemTime} (hheld : Held logId c epoch last s.world)
    (hstep : TimedStep logId s e s')
    (hpunctual : ∀ t now call d result, e = (t, .claimRead call d now result) →
      t.nanos ≤ last.nanos + period ∧ now.nanos ≤ t.nanos + delay ∧
        now.nanos < (2 ^ 64 - 1) * 10 ^ 6)
    (hfit : period + delay + 10 ^ 6 ≤ leaseTtl.nanos + takeoverSafetyMargin.nanos) :
    ∀ call d claim, s'.world.pending call = some (d, claim) →
      claim.observed.toNat < epoch.toNat := by
  intro call d claim hpending
  rcases pending_step hstep hpending with ⟨hbefore, -, -⟩ | ⟨hev, hd, hread⟩
  · exact hheld.below call d claim hbefore
  · obtain ⟨ht, hnow, hrange⟩ := hpunctual e.1 _ call d _ (by rw [← hev])
    rw [LeaseCoordinator.claimRead_held (hd ▸ hheld.stored)
      (not_expired ht hnow hrange hfit)] at hread
    cases hread

/-- While the run is punctual the lease stays held, and no one else is handed one. -/
theorem Held.run {t₀ : SystemTime}
    (hheld : Held logId c epoch t₀ s₀.world) (h : Trace (TimedStep logId) s₀ history s)
    (hp : Punctual c.identity epoch period delay t₀ history)
    (hfit : period + delay + 10 ^ 6 ≤ leaseTtl.nanos + takeoverSafetyMargin.nanos) :
    Held logId c epoch (lastRenewal c.identity epoch t₀ history) s.world ∧
    (∀ e ∈ history, ∀ l, e.2.lease = some l → l.holderId = c.identity ∧ l.epoch = epoch) ∧
    ∀ e ∈ history, e.2.RenewalOf c.identity epoch → ∃ l, e.2.lease = some l := by
  induction h with
  | refl => exact ⟨hheld, by simp, by simp⟩
  | @snoc history e s s' _ hstep ih =>
    obtain ⟨hbefore, hleases, hgranted⟩ := ih hp.of_append
    have hbelow := hbefore.below_step hstep
      (fun t now call d result he => hp history [] t now call d result (by rw [he])) hfit
    rw [lastRenewal_concat]
    simp only [List.forall_mem_append, List.forall_mem_singleton]
    by_cases hren : e.2.RenewalOf c.identity epoch
    · obtain ⟨l, hl, hid, hepoch, hv⟩ := hbefore.renewed hstep hren
      rw [if_pos hren]
      refine ⟨⟨hv, hbelow⟩, ⟨hleases, ?_⟩, ⟨hgranted, fun _ => ⟨l, hl⟩⟩⟩
      intro l' hl'
      rw [hl] at hl'
      cases hl'
      exact ⟨hid, hepoch⟩
    · obtain ⟨hnone, hv⟩ := hbefore.kept hstep hren
      rw [if_neg hren]
      refine ⟨⟨hv, hbelow⟩, ⟨hleases, ?_⟩, ⟨hgranted, fun h => absurd h hren⟩⟩
      intro l' hl'
      rw [hnone] at hl'
      cases hl'

end Coordination
