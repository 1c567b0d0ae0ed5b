import MtcCa.Coordination.Safety

/-! Takeovers on one monotone clock. Every step is stamped with the clock when it happens; an
acquire or a renewal reads the clock at its write, a claim after its read and before its
write. -/
namespace Coordination

open Cloud Transition

/-- The world, the clock, and what each claim in flight has read from the clock. -/
structure TimedWorld where
  world : World
  clock : SystemTime
  readings : ℕ → SystemTime

/-- A step and the clock when it happens. -/
abbrev TimedEvent := SystemTime × Event

/-- The steps of coordinators of one log that share one monotone clock. -/
inductive TimedStep (logId : LogId) : TimedWorld → TimedEvent → TimedWorld → Prop where
  | acquire {s : TimedWorld} {w' : World} {t : SystemTime} {c : LeaseCoordinator}
      {result : Except LeaseError Lease} (hclock : s.clock ≤ t)
      (hstep : Step logId s.world (.acquire c t result) w') :
      TimedStep logId s (t, .acquire c t result) ⟨w', t, s.readings⟩
  | renew {s : TimedWorld} {w' : World} {t : SystemTime} {c : LeaseCoordinator} {epoch : Epoch}
      {result : Except LeaseError Lease} (hclock : s.clock ≤ t)
      (hstep : Step logId s.world (.renew c t epoch result) w') :
      TimedStep logId s (t, .renew c t epoch result) ⟨w', t, s.readings⟩
  | claimRead {s : TimedWorld} {w' : World} {t now : SystemTime} {call : ℕ}
      {c : LeaseCoordinator} {result : Except LeaseError PendingClaim} (hclock : s.clock ≤ t)
      (hnow : t ≤ now) (hstep : Step logId s.world (.claimRead call c now result) w') :
      TimedStep logId s (t, .claimRead call c now result)
        ⟨w', t, Function.update s.readings call now⟩
  | claimWrite {s : TimedWorld} {w' : World} {t : SystemTime} {call : ℕ} {c : LeaseCoordinator}
      {result : Except LeaseError Lease} (hclock : s.clock ≤ t) (hread : s.readings call ≤ t)
      (hstep : Step logId s.world (.claimWrite call c result) w') :
      TimedStep logId s (t, .claimWrite call c result) ⟨w', t, s.readings⟩

/-- The lease that a successful acquire, renewal or claim returns. -/
def Event.lease : Event → Option Lease
  | .acquire _ _ (.ok l) => some l
  | .renew _ _ _ (.ok l) => some l
  | .claimWrite _ _ (.ok l) => some l
  | _ => none

/-- The claim that a step belongs to. -/
def Event.call : Event → Option ℕ
  | .claimRead call _ _ _ => some call
  | .claimWrite call _ _ => some call
  | _ => none

/-- The holder that a successful claim installs. -/
def Event.claimant : Event → Option HolderId
  | .claimWrite _ c (.ok _) => some c.identity
  | _ => none

/-- The margin has passed since the lease's expiry, in saturating milliseconds. -/
def Lease.ExpiredBy (l : Lease) (t : SystemTime) : Prop :=
  saturatingAdd (toUnixMillis l.expiresAt) (durationMillis takeoverSafetyMargin) ≤ toUnixMillis t

variable {logId : LogId} {w w' : World} {s s' : TimedWorld} {ev : Event} {e : TimedEvent}
  {history : List TimedEvent} {t : SystemTime}

theorem TimedStep.step (h : TimedStep logId s e s') : Step logId s.world e.2 s'.world := by
  cases h with
  | acquire hclock hstep => exact hstep
  | renew hclock hstep => exact hstep
  | claimRead hclock hnow hstep => exact hstep
  | claimWrite hclock hread hstep => exact hstep

/-- Without its times a run is a run of the untimed protocol. -/
theorem untimed (h : Trace (TimedStep logId) s history s') :
    Trace (Step logId) s.world (history.map Prod.snd) s'.world :=
  h.map (fun _ _ _ hstep => hstep.step)

theorem expiryFrom_mono {t' : SystemTime} (h : t ≤ t') : expiryFrom t ≤ expiryFrom t' :=
  Saturating.saturatingAdd_le_saturatingAdd (toUnixMillis_mono h) _

theorem encodeLease_inj {r r' : Region} {h h' : HolderId} {e e' : Epoch} {x x' : UInt64}
    (heq : encodeLease r h e x = encodeLease r' h' e' x') : r = r' ∧ h = h' ∧ e = e' ∧ x = x' := by
  have hl := (decodeLease_encodeLease (r := r) ⟨""⟩).symm.trans
    ((congrArg (fun v => decodeLease ⟨⟨""⟩, v⟩) heq).trans (decodeLease_encodeLease ⟨""⟩))
  simp only [Except.ok.injEq, Lease.mk.injEq, SystemTime.mk.injEq] at hl
  obtain ⟨hr, hh, he, hx⟩ := hl
  exact ⟨hr, hh, he, UInt64.toNat_inj.mp (by omega)⟩

/-- All that one step can do to an encoded lease, with the lease it returns. -/
inductive LeaseEffect (logId : LogId) (w : World) : Event → Store → Prop where
  | kept {ev : Event} (hlease : ev.lease = none) : LeaseEffect logId w ev w.items
  | acquired {c : LeaseCoordinator} {now : SystemTime}
      (habs : w.items.get? (leaseKey logId) = none) :
      LeaseEffect logId w
        (.acquire c now (.ok ⟨c.region, c.identity, initialEpoch,
          ⟨(expiryFrom now).toNat * 10 ^ 6⟩⟩))
        (w.items.insert (leaseKey logId)
          (encodeLease c.region c.identity initialEpoch (expiryFrom now)))
  | renewed {c : LeaseCoordinator} {now : SystemTime} {r : Region} {e : Epoch} {x : UInt64}
      (hv : w.items.get? (leaseKey logId) = some (encodeLease r c.identity e x)) :
      LeaseEffect logId w
        (.renew c now e (.ok ⟨r, c.identity, e, ⟨(expiryFrom now).toNat * 10 ^ 6⟩⟩))
        (w.items.insert (leaseKey logId) (encodeLease r c.identity e (expiryFrom now)))
  | claimed {c : LeaseCoordinator} {call : ℕ} {claim : PendingClaim} {r : Region} {h : HolderId}
      {x : UInt64} (hpending : w.pending call = some (c, claim))
      (hv : w.items.get? (leaseKey logId) = some (encodeLease r h claim.observed x)) :
      LeaseEffect logId w
        (.claimWrite call c (.ok ⟨c.region, c.identity, claim.nextEpoch,
          ⟨claim.expiresAt.toNat * 10 ^ 6⟩⟩))
        (w.items.insert (leaseKey logId)
          (encodeLease c.region c.identity claim.nextEpoch claim.expiresAt))

theorem leaseEffect_of_step (hi : LeaseItem logId w.items) (h : Step logId w ev w') :
    LeaseEffect logId w ev w'.items := by
  cases h with
  | @acquire c now hc =>
    rcases c.acquire_cases w.items now with ⟨habs, heq⟩ | heq
    · rw [heq, hc]
      rw [hc] at habs
      exact .acquired habs
    · rw [heq]
      exact .kept rfl
  | @renew c now e hc =>
    rcases c.renew_cases w.items now e with ⟨entries, hv, hholder, hepoch, heq⟩ | ⟨err, heq⟩
    · rw [hc] at hv
      obtain ⟨r, h, e', x, rfl⟩ := hi.entries_eq hv
      rw [leaseEntries_holder, Option.some.injEq, Value.string.injEq] at hholder
      rw [leaseEntries_epoch, Option.some.injEq, Value.u64.injEq] at hepoch
      obtain rfl : h = c.identity := congrArg HolderId.mk hholder
      subst hepoch
      rw [heq, hc, leaseEntries_insert_expiresAt, ← encodeLease, decodeLease_encodeLease]
      exact .renewed hv
    · rw [heq]
      exact .kept rfl
  | claimRead now hc hfree hread => exact .kept rfl
  | claimReadFailed now hc hfree hread => exact .kept rfl
  | @claimWrite c call claim hc hpending =>
    rcases c.claimWrite_cases w.items claim with ⟨entries, hv, hepoch, heq⟩ | ⟨err, heq⟩
    · rw [hc] at hv
      obtain ⟨r, h, e, x, rfl⟩ := hi.entries_eq hv
      rw [leaseEntries_epoch, Option.some.injEq, Value.u64.injEq] at hepoch
      subst hepoch
      rw [heq, hc, takeover_leaseEntries, ← encodeLease, decodeLease_encodeLease]
      exact .claimed hpending hv
    · rw [heq]
      exact .kept rfl

/-- A claim in flight after a step was in flight before it, or the step is its read. -/
theorem pending_step (h : TimedStep logId s e s') {call : ℕ} {c : LeaseCoordinator}
    {claim : PendingClaim} (hpending : s'.world.pending call = some (c, claim)) :
    (s.world.pending call = some (c, claim) ∧ s'.readings call = s.readings call ∧
      e.2.call ≠ some call) ∨
    (e.2 = .claimRead call c (s'.readings call) (.ok claim) ∧ c.key = leaseKey logId ∧
      c.claimRead s.world.items (s'.readings call) = .ok claim) := by
  cases h with
  | acquire hclock hstep =>
    cases hstep
    exact Or.inl ⟨hpending, rfl, by simp [Event.call]⟩
  | renew hclock hstep =>
    cases hstep
    exact Or.inl ⟨hpending, rfl, by simp [Event.call]⟩
  | @claimRead _ _ now call' c' result hclock hnow hstep =>
    by_cases hcall : call = call'
    · subst hcall
      right
      simp only [Function.update_self]
      cases hstep with
      | claimRead _ hc hfree hread =>
        simp only [Function.update_self, Option.some.injEq, Prod.mk.injEq] at hpending
        obtain ⟨rfl, rfl⟩ := hpending
        exact ⟨rfl, hc, hread⟩
      | claimReadFailed _ hc hfree hread =>
        rw [hfree] at hpending
        cases hpending
    · left
      refine ⟨?_, by simp only [Function.update_of_ne hcall], by simp [Event.call, Ne.symm hcall]⟩
      cases hstep with
      | claimRead _ hc hfree hread => simpa only [Function.update_of_ne hcall] using hpending
      | claimReadFailed _ hc hfree hread => exact hpending
  | @claimWrite _ _ call' c' result hclock hread hstep =>
    cases hstep
    by_cases hcall : call = call'
    · simp only [hcall, Function.update_self] at hpending
      cases hpending
    · simp only [Function.update_of_ne hcall] at hpending
      exact Or.inl ⟨hpending, rfl, by simp [Event.call, Ne.symm hcall]⟩

/-- What a claim in flight will write was computed from its own reading. -/
def PendingExpiry (s : TimedWorld) : Prop :=
  ∀ call c claim, s.world.pending call = some (c, claim) →
    claim.expiresAt = expiryFrom (s.readings call)

theorem pendingExpiry_step (h : TimedStep logId s e s') (hi : LeaseItem logId s.world.items)
    (hp : PendingExpiry s) : PendingExpiry s' := by
  intro call c claim hpending
  rcases pending_step h hpending with ⟨hbefore, hreading, -⟩ | ⟨-, hc, hread⟩
  · rw [hreading]
    exact hp call c claim hbefore
  · rcases hi with habs | ⟨r, h, e, x, hv⟩
    · rw [c.claimRead_absent (hc ▸ habs)] at hread
      cases hread
    · exact (c.claimRead_eq_ok (hc ▸ hv) hread).2.1

/-- The read of every claim in flight stands in the history, and nothing else of that claim
after it. -/
def ReadOf (history : List TimedEvent) (s : TimedWorld) : Prop :=
  ∀ call c claim, s.world.pending call = some (c, claim) → ∃ before t during,
    history = before ++ (t, .claimRead call c (s.readings call) (.ok claim)) :: during ∧
      ∀ e ∈ during, e.2.call ≠ some call

theorem readOf_step (h : TimedStep logId s e s') (hr : ReadOf history s) :
    ReadOf (history ++ [e]) s' := by
  intro call c claim hpending
  rcases pending_step h hpending with ⟨hbefore, hreading, hcall⟩ | ⟨hev, -⟩
  · obtain ⟨before, t, during, rfl, hnone⟩ := hr call c claim hbefore
    refine ⟨before, t, during ++ [e], ?_, ?_⟩
    · rw [hreading, List.append_assoc, List.cons_append]
    · intro e' he'
      rcases List.mem_append.mp he' with he' | he'
      · exact hnone e' he'
      · rwa [List.mem_singleton.mp he']
  · exact ⟨history, e.1, [], by rw [← hev], by simp⟩

/-- The stored expiry covers every lease returned at the stored epoch, and nothing was
returned at a later epoch. -/
def Covers (logId : LogId) (history : List TimedEvent) (s : TimedWorld) : Prop :=
  (s.world.items.get? (leaseKey logId) = none ∧ ∀ e ∈ history, e.2.lease = none) ∨
  ∃ r h epoch x, s.world.items.get? (leaseKey logId) = some (encodeLease r h epoch x) ∧
    x ≤ expiryFrom s.clock ∧
    ∀ e ∈ history, ∀ l, e.2.lease = some l → l.epoch.toNat ≤ epoch.toNat ∧
      (l.epoch = epoch → toUnixMillis l.expiresAt ≤ x)

theorem Covers.leaseItem (h : Covers logId history s) : LeaseItem logId s.world.items := by
  rcases h with ⟨habs, -⟩ | ⟨r, h, epoch, x, hv, -⟩
  · exact Or.inl habs
  · exact Or.inr ⟨r, h, epoch, x, hv⟩

/-- A step that returns no lease and keeps the items only moves the clock. -/
theorem Covers.kept (h : Covers logId history s) (hclock : s.clock ≤ s'.clock)
    (hitems : s'.world.items = s.world.items) (hlease : e.2.lease = none) :
    Covers logId (history ++ [e]) s' := by
  rcases h with ⟨habs, hnone⟩ | ⟨r, h, epoch, x, hv, hx, hall⟩
  · refine Or.inl ⟨by rw [hitems, habs], ?_⟩
    intro e' he'
    rcases List.mem_append.mp he' with he' | he'
    · exact hnone e' he'
    · rw [List.mem_singleton.mp he', hlease]
  · refine Or.inr ⟨r, h, epoch, x, by rw [hitems, hv],
      UInt64.le_trans hx (expiryFrom_mono hclock), ?_⟩
    intro e' he' l hl
    rcases List.mem_append.mp he' with he' | he'
    · exact hall e' he' l hl
    · rw [List.mem_singleton.mp he', hlease] at hl
      cases hl

/-- A step that writes a lease covers it, and covers the earlier ones when its epoch is later
than theirs or its expiry at least the stored one. -/
theorem covers_written {r : Region} {h : HolderId} {epoch : Epoch} {x : UInt64}
    (hv : s'.world.items.get? (leaseKey logId) = some (encodeLease r h epoch x))
    (hx : x ≤ expiryFrom s'.clock) (hlease : e.2.lease = some ⟨r, h, epoch, ⟨x.toNat * 10 ^ 6⟩⟩)
    (hall : ∀ e ∈ history, ∀ l, e.2.lease = some l → l.epoch.toNat ≤ epoch.toNat ∧
      (l.epoch = epoch → toUnixMillis l.expiresAt ≤ x)) :
    Covers logId (history ++ [e]) s' := by
  refine Or.inr ⟨r, h, epoch, x, hv, hx, ?_⟩
  intro e' he' l hl
  rcases List.mem_append.mp he' with he' | he'
  · exact hall e' he' l hl
  · rw [List.mem_singleton.mp he', hlease] at hl
    cases hl
    exact ⟨le_refl _, fun _ => UInt64.le_of_eq (toUnixMillis_millis x)⟩

theorem Covers.absent (h : Covers logId history s)
    (habs : s.world.items.get? (leaseKey logId) = none) : ∀ e ∈ history, e.2.lease = none := by
  rcases h with ⟨-, hnone⟩ | ⟨r, h, epoch, x, hv, -⟩
  · exact hnone
  · rw [habs] at hv
    cases hv

/-- The invariant's second case, at a store whose encoded lease is known. -/
theorem Covers.stored {r : Region} {h : HolderId} {epoch : Epoch} {x : UInt64}
    (hcov : Covers logId history s)
    (hv : s.world.items.get? (leaseKey logId) = some (encodeLease r h epoch x)) :
    x ≤ expiryFrom s.clock ∧
      ∀ e ∈ history, ∀ l, e.2.lease = some l → l.epoch.toNat ≤ epoch.toNat ∧
        (l.epoch = epoch → toUnixMillis l.expiresAt ≤ x) := by
  rcases hcov with ⟨habs, -⟩ | ⟨r', h', epoch', x', hv', hx, hall⟩
  · rw [habs] at hv
    cases hv
  · rw [hv', Option.some.injEq] at hv
    obtain ⟨-, -, rfl, rfl⟩ := encodeLease_inj hv
    exact ⟨hx, hall⟩

theorem covers_step (h : TimedStep logId s e s') (hp : PendingExpiry s)
    (hcov : Covers logId history s) : Covers logId (history ++ [e]) s' := by
  have heff := leaseEffect_of_step hcov.leaseItem h.step
  generalize hitems : s'.world.items = items' at heff
  cases h with
  | acquire hclock hstep =>
    cases heff with
    | kept hlease => exact hcov.kept hclock hitems hlease
    | acquired habs =>
      refine covers_written (by rw [hitems, FiniteMap.get?_insert_self]) UInt64.le_rfl rfl ?_
      intro e he l hl
      rw [hcov.absent habs e he] at hl
      cases hl
  | renew hclock hstep =>
    cases heff with
    | kept hlease => exact hcov.kept hclock hitems hlease
    | renewed hv =>
      obtain ⟨hx, hall⟩ := hcov.stored hv
      refine covers_written (by rw [hitems, FiniteMap.get?_insert_self]) UInt64.le_rfl rfl ?_
      intro e he l hl
      exact ⟨(hall e he l hl).1, fun hepoch =>
        UInt64.le_trans ((hall e he l hl).2 hepoch) (UInt64.le_trans hx (expiryFrom_mono hclock))⟩
  | claimRead hclock hnow hstep =>
    cases heff with
    | kept hlease => exact hcov.kept hclock hitems hlease
  | claimWrite hclock hread hstep =>
    cases heff with
    | kept hlease => exact hcov.kept hclock hitems hlease
    | @claimed _ _ claim _ _ _ hpending hv =>
      obtain ⟨hx, hall⟩ := hcov.stored hv
      refine covers_written (by rw [hitems, FiniteMap.get?_insert_self]) ?_ rfl ?_
      · rw [hp _ _ _ hpending]
        exact expiryFrom_mono hread
      · intro e he l hl
        have hle := (hall e he l hl).1
        have hnext := claim.nextEpoch_eq
        refine ⟨by omega, ?_⟩
        intro hepoch
        rw [hepoch] at hle
        omega

/-- What every run keeps. -/
structure TimedInvariant (logId : LogId) (history : List TimedEvent) (s : TimedWorld) : Prop where
  covers : Covers logId history s
  pendingExpiry : PendingExpiry s
  readOf : ReadOf history s

theorem timedInvariant_reachable {s₀ : TimedWorld} (h₀ : Initial logId s₀.world)
    (h : Trace (TimedStep logId) s₀ history s) : TimedInvariant logId history s := by
  have hnone : ∀ call p, s₀.world.pending call ≠ some p := by
    intro call p hpending
    rw [h₀.2 call] at hpending
    cases hpending
  refine h.history (P := fun history s => TimedInvariant logId history s) ?_ ?_
  · intro history e s s' hstep hinv
    exact ⟨covers_step hstep hinv.pendingExpiry hinv.covers,
      pendingExpiry_step hstep hinv.covers.leaseItem hinv.pendingExpiry,
      readOf_step hstep hinv.readOf⟩
  · exact ⟨Or.inl ⟨h₀.1, by simp⟩, fun call c claim hp => absurd hp (hnone call _),
      fun call c claim hp => absurd hp (hnone call _)⟩

/-- A read that lets its claim go on changes no item and finds a lease that has expired. -/
theorem claimRead_step {call : ℕ} {c : LeaseCoordinator} {now : SystemTime} {claim : PendingClaim}
    (hi : LeaseItem logId w.items) (h : Step logId w (.claimRead call c now (.ok claim)) w') :
    w'.items = w.items ∧ ∃ r h x,
      w.items.get? (leaseKey logId) = some (encodeLease r h claim.observed x) ∧
      saturatingAdd x (durationMillis takeoverSafetyMargin) ≤ toUnixMillis now := by
  cases h with
  | claimRead _ hc hfree hread =>
    rcases hi with habs | ⟨r, h, epoch, x, hv⟩
    · rw [c.claimRead_absent (hc ▸ habs)] at hread
      cases hread
    · obtain ⟨hobs, -, hexpired⟩ := c.claimRead_eq_ok (hc ▸ hv) hread
      exact ⟨rfl, r, h, x, by rw [hv, hobs], hexpired⟩

/-- When a claim goes on, every earlier lease of the epoch it observed has expired on the clock
it read. -/
theorem expired_of_read {call : ℕ} {c : LeaseCoordinator} {now : SystemTime}
    {claim : PendingClaim} (hcov : Covers logId history s)
    (h : Step logId s.world (.claimRead call c now (.ok claim)) w') :
    ∀ e ∈ history, ∀ g, e.2.lease = some g → g.epoch = claim.observed → g.ExpiredBy now := by
  obtain ⟨-, r, h, x, hv, hexpired⟩ := claimRead_step hcov.leaseItem h
  intro e he g hg hepoch
  have hle := ((hcov.stored hv).2 e he g hg).2 hepoch
  exact UInt64.le_trans (Saturating.saturatingAdd_le_saturatingAdd hle _) hexpired

/-- Once an epoch is stored, only renewals return a lease of it. -/
theorem renewal_of_lease {epoch : Epoch} {later : List Event} {g : Lease}
    (hi : LeaseItem logId w.items) (hstored : epochAt w.items (leaseKey logId) = some (.u64 epoch))
    (h : Trace (Step logId) w later w') (hmem : ev ∈ later) (hg : ev.lease = some g)
    (hepoch : g.epoch = epoch) : ∃ d now, ev = .renew d now epoch (.ok g) := by
  obtain ⟨before, u, u', after, hbefore, hstep, -⟩ := h.exists_step_of_mem hmem
  obtain ⟨e', he', hle⟩ := epochLe_trace hbefore epoch hstored
  have heff := leaseEffect_of_step (leaseItem_trace hi hbefore) hstep
  generalize u'.items = items' at heff
  cases heff with
  | kept hlease =>
    rw [hlease] at hg
    cases hg
  | acquired habs =>
    rw [epochAt_of_absent habs] at he'
    cases he'
  | @renewed d now r e x hv =>
    cases hg
    cases hepoch
    exact ⟨d, now, rfl⟩
  | @claimed c call claim r h x hpending hv =>
    rw [epochAt, hv, attributeValue_epoch, Option.some.injEq, Value.u64.injEq] at he'
    cases hg
    have hnext := claim.nextEpoch_eq
    rw [← he', ← hepoch] at hle
    simp only at hle
    omega

/-- A holder that is not the stored one stays so until it claims. -/
theorem holder_displaced {r : Region} {h d : HolderId} {epoch : Epoch} {x : UInt64}
    {later : List Event} (hv : w.items.get? (leaseKey logId) = some (encodeLease r h epoch x))
    (hne : h ≠ d) (htrace : Trace (Step logId) w later w')
    (hno : ∀ ev ∈ later, ev.claimant ≠ some d) :
    ∃ r' h' epoch' x', w'.items.get? (leaseKey logId) = some (encodeLease r' h' epoch' x') ∧
      h' ≠ d := by
  induction htrace with
  | refl => exact ⟨r, h, epoch, x, hv, hne⟩
  | @snoc later ev u u' hbefore hstep ih =>
    obtain ⟨r', h', epoch', x', hv', hne'⟩ := ih (fun ev hev => hno ev (List.mem_append_left _ hev))
    have heff := leaseEffect_of_step (Or.inr ⟨r', h', epoch', x', hv'⟩) hstep
    generalize u'.items = items' at heff
    cases heff with
    | kept hlease => exact ⟨r', h', epoch', x', hv', hne'⟩
    | acquired habs =>
      rw [habs] at hv'
      cases hv'
    | @renewed c now r₂ e₂ x₂ hv₂ =>
      rw [hv', Option.some.injEq] at hv₂
      obtain ⟨-, rfl, -⟩ := encodeLease_inj hv₂
      exact ⟨_, _, _, _, FiniteMap.get?_insert_self, hne'⟩
    | @claimed c call claim r₂ h₂ x₂ hpending hv₂ =>
      refine ⟨_, _, _, _, FiniteMap.get?_insert_self, ?_⟩
      intro heq
      exact hno _ (List.mem_append_right _ (List.mem_singleton_self _)) (congrArg some heq)

/-- A claim that commits finds its observed epoch stored and installs its coordinator at the
next one. -/
theorem claimWrite_step {call : ℕ} {c : LeaseCoordinator} {l : Lease}
    (hi : LeaseItem logId w.items) (h : Step logId w (.claimWrite call c (.ok l)) w') :
    ∃ claim, w.pending call = some (c, claim) ∧ l.epoch = claim.nextEpoch ∧
      w'.items.get? (leaseKey logId) =
        some (encodeLease c.region c.identity claim.nextEpoch claim.expiresAt) := by
  have heff := leaseEffect_of_step hi h
  generalize w'.items = items' at heff
  cases heff with
  | kept hlease => cases hlease
  | @claimed _ _ claim _ _ _ hpending hv =>
    exact ⟨claim, hpending, rfl, FiniteMap.get?_insert_self⟩

theorem Lease.ExpiredBy.mono {l : Lease} {t' : SystemTime} (h : l.ExpiredBy t) (ht : t ≤ t') :
    l.ExpiredBy t' :=
  UInt64.le_trans h (toUnixMillis_mono ht)

/-- After a takeover a renewal under another identity is refused, until that holder claims. -/
theorem renew_displaced {r : Region} {h : HolderId} {epoch : Epoch} {x : UInt64}
    {soFar rest : List Event} {d : LeaseCoordinator} {now : SystemTime} {epoch' : Epoch}
    {result : Except LeaseError Lease}
    (hv : w.items.get? (leaseKey logId) = some (encodeLease r h epoch x)) (hne : h ≠ d.identity)
    (htrace : Trace (Step logId) w (soFar ++ .renew d now epoch' result :: rest) w')
    (hno : ∀ ev ∈ soFar, ev.claimant ≠ some d.identity) : result = .error .lostLease := by
  obtain ⟨u, hbefore, hrest⟩ := htrace.split
  obtain ⟨u', hone, -⟩ :=
    (show Trace (Step logId) u ([.renew d now epoch' result] ++ rest) w' from hrest).split
  obtain ⟨r', h', e', x', hv', hne'⟩ := holder_displaced hv hne hbefore hno
  cases hone.step_of_singleton with
  | renew _ _ hd => rw [d.renew_lost (hd ▸ hv') (Or.inl hne')]

/-- Every takeover in a run has its read in the run, at a store where every earlier lease of the
observed epoch is covered. -/
theorem exists_read_of_commit {s₀ s₁ s₂ : TimedWorld} {events : List TimedEvent} {call : ℕ}
    {c : LeaseCoordinator} {l : Lease} (h₀ : Initial logId s₀.world)
    (h : Trace (TimedStep logId) s₀ events s₁)
    (hcommit : TimedStep logId s₁ (t, .claimWrite call c (.ok l)) s₂) :
    ∃ claim before tRead now during u u',
      events = before ++ (tRead, .claimRead call c now (.ok claim)) :: during ∧
      (∀ e ∈ during, e.2.call ≠ some call) ∧ now ≤ t ∧ l.epoch = claim.nextEpoch ∧
      s₂.world.items.get? (leaseKey logId) =
        some (encodeLease c.region c.identity claim.nextEpoch claim.expiresAt) ∧
      Covers logId before u ∧ Step logId u.world (.claimRead call c now (.ok claim)) u'.world ∧
      Trace (TimedStep logId) u' during s₁ := by
  have hinv := timedInvariant_reachable h₀ h
  obtain ⟨claim, hpending, hl, hv⟩ := claimWrite_step hinv.covers.leaseItem hcommit.step
  obtain ⟨before, tRead, during, rfl, hduring⟩ := hinv.readOf call c claim hpending
  obtain ⟨u, hbefore, hmiddle⟩ := h.split
  obtain ⟨u', hread, hrun⟩ := (show Trace (TimedStep logId) u
    ([(tRead, .claimRead call c (s₁.readings call) (.ok claim))] ++ during) s₁ from hmiddle).split
  have hreading : s₁.readings call ≤ t := by
    cases hcommit with
    | claimWrite hclock hle hst => exact hle
  exact ⟨claim, before, tRead, _, during, u, u', rfl, hduring, hreading, hl, hv,
    (timedInvariant_reachable h₀ hbefore).covers, hread.step_of_singleton.step, hrun⟩

/-- A takeover cuts no lease short but one renewed between the claim's read and its write, and
the holder it displaces renews no more until it claims. -/
theorem takeover_only_expired {s₀ : TimedWorld} {events after : List TimedEvent} {call : ℕ}
    {c : LeaseCoordinator} {l : Lease} (h₀ : Initial logId s₀.world)
    (h : Trace (TimedStep logId) s₀ (events ++ (t, .claimWrite call c (.ok l)) :: after) s) :
    ∃ claim before tRead now during,
      events = before ++ (tRead, .claimRead call c now (.ok claim)) :: during ∧
      (∀ e ∈ during, e.2.call ≠ some call) ∧
      l.epoch.toNat = claim.observed.toNat + 1 ∧
      (∀ e ∈ before, ∀ g, e.2.lease = some g → g.epoch = claim.observed → g.ExpiredBy t) ∧
      (∀ e ∈ events, ∀ g, e.2.lease = some g → g.epoch = claim.observed → ¬ g.ExpiredBy t →
        e ∈ during ∧ ∃ d now, e.2 = .renew d now claim.observed (.ok g)) ∧
      (∀ e ∈ after, ∀ d now epoch result, e.2 = .renew d now epoch result →
        epoch.toNat ≤ claim.observed.toNat → result = .error .lostLease) ∧
      (∀ soFar e rest, after = soFar ++ e :: rest →
        ∀ d now epoch result, e.2 = .renew d now epoch result → d.identity ≠ c.identity →
        (∀ e ∈ soFar, e.2.claimant ≠ some d.identity) → result = .error .lostLease) := by
  obtain ⟨s₁, hevents, hrest⟩ := h.split
  obtain ⟨s₂, hone, hafter⟩ := (show Trace (TimedStep logId) s₁
    ([(t, .claimWrite call c (.ok l))] ++ after) s from hrest).split
  obtain ⟨claim, before, tRead, now, during, u, u', rfl, hduring, hnow, hl, hv, hcov, hread,
    hrun⟩ := exists_read_of_commit h₀ hevents hone.step_of_singleton
  have hnext := claim.nextEpoch_eq
  have hexpired : ∀ e ∈ before, ∀ g, e.2.lease = some g → g.epoch = claim.observed →
      g.ExpiredBy t := by
    intro e he g hg hepoch
    exact (expired_of_read hcov hread e he g hg hepoch).mono hnow
  refine ⟨claim, before, tRead, now, during, rfl, hduring, by rw [hl, hnext], hexpired, ?_, ?_, ?_⟩
  · intro e he g hg hepoch hnot
    rcases List.mem_append.mp he with he | he
    · exact absurd (hexpired e he g hg hepoch) hnot
    rcases List.mem_cons.mp he with rfl | he
    · cases hg
    · obtain ⟨hitems, r, holder, x, hstored, -⟩ := claimRead_step hcov.leaseItem hread
      rw [← hitems] at hstored
      have hepochAt : epochAt u'.world.items (leaseKey logId) = some (.u64 claim.observed) := by
        rw [epochAt, hstored, attributeValue_epoch]
      exact ⟨he, renewal_of_lease (Or.inr ⟨_, _, _, _, hstored⟩) hepochAt (untimed hrun)
        (List.mem_map_of_mem he) hg hepoch⟩
  · intro e he d now epoch result hev hle
    have hepochAt : epochAt s₂.world.items (leaseKey logId) = some (.u64 claim.nextEpoch) := by
      rw [epochAt, hv, attributeValue_epoch]
    have hmem : Event.renew d now epoch result ∈ after.map Prod.snd := hev ▸ List.mem_map_of_mem he
    exact renew_superseded (Or.inr ⟨_, _, _, _, hv⟩) (untimed hafter) hepochAt (by omega) hmem
  · intro soFar e rest hsplit d now epoch result hev hne hno
    have hrun' := untimed hafter
    rw [hsplit, List.map_append, List.map_cons, hev] at hrun'
    refine renew_displaced hv (Ne.symm hne) hrun' ?_
    intro ev hmem
    obtain ⟨e', he', rfl⟩ := List.mem_map.mp hmem
    exact hno e' he'

/-- The worlds of west's takeover: before the claim's read, before its write and after it. -/
def eastHolds : TimedWorld := ⟨⟨(east.acquire .empty ⟨0⟩).2, fun _ => none⟩, ⟨0⟩, fun _ => ⟨0⟩⟩

def westClaims : TimedWorld where
  world := ⟨eastHolds.world.items, Function.update (fun _ => none) 0 (some (west, expiredClaim))⟩
  clock := ⟨120 * 10 ^ 9⟩
  readings := Function.update (fun _ => ⟨0⟩) 0 ⟨120 * 10 ^ 9⟩

def westHolds : TimedWorld where
  world := ⟨(west.claimWrite eastHolds.world.items expiredClaim).2,
    Function.update westClaims.world.pending 0 none⟩
  clock := ⟨130 * 10 ^ 9⟩
  readings := westClaims.readings

theorem takeover_only_expired_west :
    eastLease.ExpiredBy ⟨130 * 10 ^ 9⟩ ∧
      (east.renew westHolds.world.items ⟨131 * 10 ^ 9⟩ 1).1 = .error .lostLease := by
  have hacquire : (east.acquire .empty ⟨0⟩).1 = .ok eastLease := by decide +kernel
  have hread : west.claimRead eastHolds.world.items ⟨120 * 10 ^ 9⟩ = .ok expiredClaim := by
    decide +kernel
  have hwrite : (west.claimWrite eastHolds.world.items expiredClaim).1 = .ok westLease := by
    decide +kernel
  have h₁ : TimedStep sampleLog ⟨⟨.empty, fun _ => none⟩, ⟨0⟩, fun _ => ⟨0⟩⟩
      (⟨0⟩, .acquire east ⟨0⟩ (.ok eastLease)) eastHolds :=
    .acquire (le_refl _) (hacquire ▸ .acquire (c := east) ⟨0⟩ rfl)
  have h₂ : TimedStep sampleLog eastHolds
      (⟨120 * 10 ^ 9⟩, .claimRead 0 west ⟨120 * 10 ^ 9⟩ (.ok expiredClaim)) westClaims :=
    .claimRead (by decide) (le_refl _) (.claimRead _ rfl rfl hread)
  have h₃ : TimedStep sampleLog westClaims
      (⟨130 * 10 ^ 9⟩, .claimWrite 0 west (.ok westLease)) westHolds :=
    .claimWrite (by decide) (by decide) (hwrite ▸ .claimWrite rfl rfl)
  have hrun := Trace.snoc (.snoc (.snoc (.snoc .refl h₁) h₂) h₃)
    (.renew (t := ⟨131 * 10 ^ 9⟩) (by decide) (.renew (c := east) _ 1 rfl))
  obtain ⟨claim, before, tRead, now, during, -, -, hepoch, -, hcut, hstale, -⟩ :=
    takeover_only_expired (t := ⟨130 * 10 ^ 9⟩) (l := westLease)
      ⟨FiniteMap.get?_empty, fun _ => rfl⟩
      (show Trace (TimedStep sampleLog) _ ([_, _] ++ _ :: [_]) _ from hrun)
  have hobserved : claim.observed = 1 := UInt64.toNat_inj.mp (Nat.succ.inj hepoch).symm
  constructor
  · by_contra hnot
    obtain ⟨-, d, tRenew, hev⟩ := hcut _ (List.mem_cons_self ..) eastLease rfl hobserved.symm hnot
    cases hev
  · exact hstale _ (List.mem_singleton_self _) east _ 1 _ rfl (by rw [hobserved])

end Coordination
