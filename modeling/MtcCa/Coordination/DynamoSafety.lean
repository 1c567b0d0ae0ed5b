import MtcCa.Cloud.DynamoQuery
import MtcCa.Coordination.OverDynamo
import MtcCa.Coordination.Safety
import MtcCa.Lib.Simulation

/-! The lease protocol on DynamoDB follows the protocol on one memory store: every request to the
table is an operation there, or a second read that hears an answer the protocol still owes. -/
namespace Coordination

open Cloud Cloud.DynamoDbReplicatedKv Transition

variable {logId : LogId} {s s' s₀ : TableWorld} {w w' w₀ : World} {e : TableEvent}
  {t t' : Dynamo.Table} {items items' : Store} {c : LeaseCoordinator} {u : Update}
  {events : List TableEvent} {evs : List Event} {evss : List (List Event)} {key : Key}

/-- Every lease key has a partition and a sort part, whatever the log is called. -/
theorem exists_splitKey_leaseKey (logId : LogId) : ∃ k, splitKey (leaseKey logId) = .ok k := by
  have hstr : (leaseKey logId).str.toList =
      'l' :: 'o' :: 'g' :: '#' :: (logId.str.toList ++ '/' :: leaseSortKey.toList) := by
    simp [leaseKey, leaseSortKey]
  have hlast : leaseSortKey.toList.getLast? = some 'e' := by decide
  unfold splitKey
  cases hsplit : splitOnce (leaseKey logId).str '/' with
  | none =>
    refine absurd ?_ (notMem_of_splitOnce_eq_none hsplit)
    rw [hstr]
    simp
  | some parts =>
    obtain ⟨a, b⟩ := parts
    have hparts := (splitOnce_toList hsplit).symm.trans hstr
    have ha : a ≠ "" := by
      rintro rfl
      simp at hparts
    have hb : b ≠ "" := by
      rintro rfl
      have hend := congrArg List.getLast? hparts
      rw [← List.cons_append, ← List.cons_append, ← List.cons_append, ← List.cons_append] at hend
      simp [List.getLast?_append, List.getLast?_cons, hlast] at hend
    exact ⟨⟨a, b⟩, by simp [ha, hb]⟩

theorem plain_expression (c : LeaseCoordinator) (u : Update) : (u.expression c).Plain := by
  cases u with
  | renew now epoch =>
    constructor
    · simp [Update.expression, UpdateAction.attr, attrExpiresAt]
    · simp [Update.expression]
  | claimWrite claim =>
    constructor
    · simp [Update.expression, UpdateAction.attr, attrEpoch, attrHolderId, attrRegion,
        attrExpiresAt]
    · simp [Update.expression, UpdateAction.attr, attrEpoch, attrHolderId, attrRegion,
        attrExpiresAt]

theorem fits_expression (c : LeaseCoordinator) (u : Update) (items : Store) :
    UpdateFits items c.key (u.expression c) := by
  intro entries _ a ha
  cases u with
  | renew now epoch =>
    simp only [Update.expression, List.mem_singleton] at ha
    rw [ha]
    trivial
  | claimWrite claim =>
    simp only [Update.expression, List.mem_cons, List.not_mem_nil, or_false] at ha
    rcases ha with rfl | rfl | rfl | rfl <;> trivial

/-- The memory's update fails on a missing item, or fails its conditions. -/
theorem atomicUpdate_of_plan_refused {expr : UpdateExpression} {conditions : List Condition}
    {reason : String}
    (h : MemoryReplicatedKv.plan items (.update key expr conditions) =
      .error (.conditionFailed reason)) :
    (items.get? key = none ∧ MemoryReplicatedKv.atomicUpdate items key expr conditions =
      (.error (.notFound key.str), items)) ∨
    items.get? key ≠ none ∧ MemoryReplicatedKv.atomicUpdate items key expr conditions =
      (.error (.conditionFailed reason), items) := by
  cases hheld : items.get? key with
  | none => exact Or.inl ⟨rfl, by rw [MemoryReplicatedKv.atomicUpdate, hheld]⟩
  | some existing => exact Or.inr ⟨by simp, atomicUpdate_of_plan_error hheld h⟩

/-- The request of an update answers as the memory's update does, or is refused where that one
finds no item or fails its conditions. -/
theorem send_cases (hr : Represents t items) (hmaps : MapItems items)
    (hc : c.key = leaseKey logId) (u : Update) :
    (∃ item t' items', u.send c t = (some (.ok item), t') ∧
      MemoryReplicatedKv.atomicUpdate items c.key (u.expression c) (u.conditions c) =
        (.ok item, items') ∧ Represents t' items' ∧ items'.get? c.key ≠ none) ∨
    u.send c t = (none, t) ∧
      ((items.get? c.key = none ∧
        MemoryReplicatedKv.atomicUpdate items c.key (u.expression c) (u.conditions c) =
          (.error (.notFound c.key.str), items)) ∨
      items.get? c.key ≠ none ∧ ∃ reason,
        MemoryReplicatedKv.atomicUpdate items c.key (u.expression c) (u.conditions c) =
          (.error (.conditionFailed reason), items)) := by
  obtain ⟨k, hk⟩ := exists_splitKey_leaseKey logId
  rw [← hc] at hk
  rcases update_cases hr hmaps hk (plain_expression c u) (fits_expression c u items)
      (u.conditions c) with ⟨attrs, updated, heffect, hplan, hs⟩ | ⟨heffect, reason, hplan⟩
  · left
    simp only [writeOf] at heffect
    refine ⟨_, _, _, ?_, atomicUpdate_of_plan hplan, hr.insert hk hs, by simp⟩
    simp only [Update.send, sendUpdate, hk, Dynamo.updateItem, heffect, Dynamo.Effect.apply,
      FiniteMap.get?_insert_self, decodeItemAttrs_of_stored hs]
  · right
    simp only [writeOf] at heffect
    refine ⟨?_, ?_⟩
    · simp only [Update.send, sendUpdate, hk, Dynamo.updateItem, heffect, isConditionFailed,
        Dynamo.Error.conditionalCheckFailed, decide_true, if_true]
    · rcases atomicUpdate_of_plan_refused hplan with hmissing | ⟨hheld, heq⟩
      · exact Or.inl hmissing
      · exact Or.inr ⟨hheld, reason, heq⟩

/-- A read of the table answers as a read of the memory does. -/
theorem get_eq (hr : Represents t items) (logId : LogId) :
    get t (leaseKey logId) = MemoryReplicatedKv.get items (leaseKey logId) := by
  obtain ⟨k, hk⟩ := exists_splitKey_leaseKey logId
  have hstored := hr.stored hk
  simp only [DynamoDbReplicatedKv.get, hk, Outcome.ok_bind, Dynamo.getItem, MemoryReplicatedKv.get]
  generalize t.get? k = o at hstored ⊢
  generalize items.get? (leaseKey logId) = o' at hstored ⊢
  cases hstored with
  | none => rfl
  | some hs => exact decodeItemAttrs_of_stored hs _

theorem claimReadOn_eq (hr : Represents t items) (hc : c.key = leaseKey logId)
    (now : SystemTime) : c.claimReadOn t now = c.claimRead items now := by
  rw [LeaseCoordinator.claimReadOn, c.claimRead_eq, hc, get_eq hr logId]

/-- Acquiring on the table hears what acquiring in memory does. -/
theorem acquireOn_eq (hr : Represents t items) (hc : c.key = leaseKey logId)
    (now : SystemTime) : (c.acquireOn t now).1 = (c.acquire items now).1 ∧
      Represents (c.acquireOn t now).2 (c.acquire items now).2 := by
  obtain ⟨k, hk⟩ := exists_splitKey_leaseKey logId
  rw [← hc] at hk
  obtain ⟨hout, hafter⟩ := put_simulates hr hk
    (encodeLease c.region c.identity initialEpoch (expiryFrom now)) [.notExists]
  rw [c.acquire_eq, LeaseCoordinator.acquireOn]
  refine ⟨?_, hafter⟩
  rcases MemoryReplicatedKv.put_cases items c.key [.notExists]
      (encodeLease c.region c.identity initialEpoch (expiryFrom now)) with ⟨-, heq⟩ | ⟨reason, heq⟩
  · rw [heq] at hout ⊢
    generalize (put t c.key _ _).1 = out at hout ⊢
    cases hout
    rfl
  · rw [heq] at hout ⊢
    generalize (put t c.key _ _).1 = out at hout ⊢
    cases hout
    rfl

/-- What the protocol answered an update whose caller has yet to hear of it: it refused the
update, or the answer was lost on the way and a second attempt refused. -/
inductive Owed where
  | refused (err : LeaseError)
  | lost (result : Except LeaseError Lease)

/-- The protocol's world, and the answers it owes. -/
structure OwingWorld where
  world : World
  owed : ℕ → Option Owed

/-- The operation of the protocol that an update is, with its result. -/
def Update.event (call : ℕ) (c : LeaseCoordinator) : Update → Except LeaseError Lease → Event
  | .renew now epoch, result => .renew c now epoch result
  | .claimWrite _, result => .claimWrite call c result

/-- What a read of the lease item makes of a refused update. -/
def Update.classify (u : Update) (logId : LogId) (items : Store) : LeaseError :=
  if items.get? (leaseKey logId) = none then .noLease (leaseKey logId).str else u.conflict

/-- What a caller hears from its second read in place of the answer it is owed: that answer, unless
the lease was missing and has been acquired since, or the answer was lost. -/
inductive Reheard (logId : LogId) (u : Update) : Owed → LeaseError → Prop where
  | same (err : LeaseError) : Reheard logId u (.refused err) err
  | acquired : Reheard logId u (.refused (.noLease (leaseKey logId).str)) u.conflict
  | lost (result : Except LeaseError Lease) : Reheard logId u (.lost result) u.conflict
  | lostMissing : Reheard logId u (.lost (.error (.noLease (leaseKey logId).str)))
      (.noLease (leaseKey logId).str)

/-- The steps of the protocol as the callers of the table hear them. Every request is one
operation, heard with its own result; a refused update and its second read are one operation,
answered at the first and heard at the second. -/
inductive OwingStep (logId : LogId) : OwingWorld → TableEvent → OwingWorld → Prop where
  | acquire {v : OwingWorld} {w' : World} {c : LeaseCoordinator} {now : SystemTime}
      {result : Except LeaseError Lease}
      (h : Step logId v.world (.acquire c now result) w') :
      OwingStep logId v (.acquire c now result) { v with world := w' }
  | claimRead {v : OwingWorld} {w' : World} {call : ℕ} {c : LeaseCoordinator} {now : SystemTime}
      {result : Except LeaseError PendingClaim}
      (h : Step logId v.world (.claimRead call c now result) w') :
      OwingStep logId v (.claimRead call c now result) { v with world := w' }
  | update {v : OwingWorld} {w' : World} {call : ℕ} {c : LeaseCoordinator} {u : Update}
      {result : Except LeaseError Lease} (h : Step logId v.world (u.event call c result) w') :
      OwingStep logId v (.update call c u result) { v with world := w' }
  | refused {v : OwingWorld} {w' : World} {call : ℕ} {c : LeaseCoordinator} {u : Update}
      {err : LeaseError} (hfree : v.owed call = none)
      (h : Step logId v.world (u.event call c (.error err)) w') :
      OwingStep logId v (.refused call c u)
        ⟨w', Function.update v.owed call (some (.refused err))⟩
  | reread {v : OwingWorld} {call : ℕ} {c : LeaseCoordinator} {u : Update} {owed : Owed}
      (howed : v.owed call = some owed)
      (h : Reheard logId u owed (u.classify logId v.world.items)) :
      OwingStep logId v (.reread call c u (.error (u.classify logId v.world.items)))
        { v with owed := Function.update v.owed call none }
  | unheard {v : OwingWorld} {w' : World} {ev : Event} (h : Step logId v.world ev w') :
      OwingStep logId v .unheard { v with world := w' }
  | unheardRetried {v : OwingWorld} {w' : World} {call : ℕ} {c : LeaseCoordinator} {u : Update}
      {result : Except LeaseError Lease} (hfree : v.owed call = none)
      (h : Step logId v.world (u.event call c result) w') :
      OwingStep logId v .unheard ⟨w', Function.update v.owed call (some (.lost result))⟩

/-- The table stores the items of the protocol's world, all of them maps, and the same claims
are in flight. -/
structure Mirrors (s : TableWorld) (w : World) : Prop where
  represents : Represents s.table w.items
  maps : MapItems w.items
  pending : s.pending = w.pending

/-- A second read classifies an update by what the protocol's world stores. -/
theorem answer_classify (hm : Mirrors s w) (hc : c.key = leaseKey logId) (u : Update) :
    u.answer (.error (classifyFailedUpdate s.table c.key)) =
      .error (u.classify logId w.items) := by
  rw [hc, classifyFailedUpdate, get_eq hm.represents logId, MemoryReplicatedKv.get,
    Update.classify]
  cases w.items.get? (leaseKey logId) with
  | none => rfl
  | some v => rfl

theorem mapItems_insert {entries : FiniteMap String Value} (h : MapItems items) :
    MapItems (items.insert key (.map entries)) := by
  intro key' v hv
  rw [FiniteMap.get?_insert] at hv
  split at hv
  · cases hv
    exact ⟨entries, rfl⟩
  · exact h key' v hv

theorem mapItems_effect {ev : Event} (heff : Effect logId items ev items') (h : MapItems items) :
    MapItems items' := by
  cases heff with
  | unchanged => exact h
  | acquired => exact mapItems_insert h
  | renewed => exact mapItems_insert h
  | claimed => exact mapItems_insert h

/-- An answer that `u` may be owed while `items` are stored. -/
inductive Awaits (logId : LogId) (items : Store) (u : Update) : Owed → Prop where
  | missing : Awaits logId items u (.refused (.noLease (leaseKey logId).str))
  | conflict (hheld : items.get? (leaseKey logId) ≠ none) :
      Awaits logId items u (.refused u.conflict)
  | lost (result : Except LeaseError Lease) (hheld : items.get? (leaseKey logId) ≠ none) :
      Awaits logId items u (.lost result)
  | lostMissing : Awaits logId items u (.lost (.error (.noLease (leaseKey logId).str)))

/-- The protocol owes an answer to exactly the refused updates. -/
structure Follows (logId : LogId) (s : TableWorld) (v : OwingWorld) : Prop where
  mirrors : Mirrors s v.world
  owes : ∀ call, Option.Rel (fun waiting owed => Awaits logId v.world.items waiting.2 owed)
    (s.refused call) (v.owed call)

/-- No step removes the lease item. -/
theorem held_effect {ev : Event} (heff : Effect logId items ev items')
    (h : items.get? (leaseKey logId) ≠ none) : items'.get? (leaseKey logId) ≠ none := by
  cases heff with
  | unchanged => exact h
  | acquired => simp
  | renewed => simp
  | claimed => simp

theorem Awaits.mono {owed : Owed} (h : Awaits logId items u owed)
    (hheld : items.get? (leaseKey logId) ≠ none → items'.get? (leaseKey logId) ≠ none) :
    Awaits logId items' u owed := by
  cases h with
  | missing => exact .missing
  | conflict h => exact .conflict (hheld h)
  | lost result h => exact .lost result (hheld h)
  | lostMissing => exact .lostMissing

/-- What the second read finds, told from what the caller is owed. -/
theorem Awaits.reheard {owed : Owed} (h : Awaits logId items u owed) :
    Reheard logId u owed (u.classify logId items) := by
  unfold Update.classify
  cases h with
  | missing =>
    split
    · exact .same _
    · exact .acquired
  | conflict hheld =>
    rw [if_neg hheld]
    exact .same _
  | lost result hheld =>
    rw [if_neg hheld]
    exact .lost result
  | lostMissing =>
    split
    · exact .lostMissing
    · exact .lost _

/-- The operation of the protocol that an update's request is, with the answer it may owe. -/
theorem update_simulated {call : ℕ} (hm : Mirrors s w) (hc : c.key = leaseKey logId)
    (hu : Offered s call c u) :
    ∃ result w', Step logId w (u.event call c result) w' ∧
      Represents (u.send c s.table).2 w'.items ∧ s.settled call u = w'.pending ∧
      (∀ out, (u.send c s.table).1 = some out → u.answer out = result) ∧
      ((u.send c s.table).1 = none →
        ∃ err, result = .error err ∧ Awaits logId w'.items u (.refused err)) ∧
      Awaits logId w'.items u (.lost result) := by
  have hanswer : ∀ out : Except CloudError Item × Store, MemoryReplicatedKv.atomicUpdate w.items
      c.key (u.expression c) (u.conditions c) = out →
      Represents (u.send c s.table).2 out.2 ∧
      (∀ out', (u.send c s.table).1 = some out' → u.answer out' = u.answer out.1) ∧
      ((u.send c s.table).1 = none →
        ∃ err, u.answer out.1 = .error err ∧ Awaits logId out.2 u (.refused err)) ∧
      Awaits logId out.2 u (.lost (u.answer out.1)) := by
    rintro out rfl
    rcases send_cases hm.represents hm.maps hc u with
      ⟨item, t', items', hsend, hupdate, hr, hheld⟩ |
        ⟨hsend, ⟨-, hupdate⟩ | ⟨hheld, reason, hupdate⟩⟩
    · rw [hsend, hupdate]
      rw [hc] at hheld
      exact ⟨hr, by simp, by simp, .lost _ hheld⟩
    · rw [hsend, hupdate, hc]
      exact ⟨hm.represents, by simp, fun _ => ⟨_, rfl, .missing⟩, .lostMissing⟩
    · rw [hsend, hupdate]
      rw [hc] at hheld
      exact ⟨hm.represents, by simp, fun _ => ⟨_, rfl, .conflict hheld⟩, .lost _ hheld⟩
  cases hu with
  | renew now epoch =>
    have hstep := Step.renew (w := w) now epoch hc
    rw [c.renew_eq] at hstep
    obtain ⟨hr, hrest⟩ := hanswer _ rfl
    exact ⟨_, _, hstep, hr, hm.pending, hrest⟩
  | @claimWrite claim hpending =>
    have hstep := Step.claimWrite (w := w) hc (hm.pending ▸ hpending)
    rw [c.claimWrite_eq] at hstep
    obtain ⟨hr, hrest⟩ := hanswer _ rfl
    exact ⟨_, _, hstep, hr, by rw [TableWorld.settled, hm.pending], hrest⟩

/-- A caller that starts or stops waiting for an answer, and the others. -/
theorem owes_update {refused : ℕ → Option (LeaseCoordinator × Update)} {owed : ℕ → Option Owed}
    {waiting : Option (LeaseCoordinator × Update)} {answer : Option Owed} (call : ℕ)
    (h : ∀ call, Option.Rel (fun waiting owed => Awaits logId items waiting.2 owed)
      (refused call) (owed call))
    (hcall : Option.Rel (fun waiting owed => Awaits logId items waiting.2 owed)
      waiting answer) (call' : ℕ) :
    Option.Rel (fun waiting owed => Awaits logId items waiting.2 owed)
      (Function.update refused call waiting call') (Function.update owed call answer call') := by
  by_cases heq : call' = call
  · subst heq
    rwa [Function.update_self, Function.update_self]
  · rw [Function.update_of_ne heq, Function.update_of_ne heq]
    exact h call'

/-- A step of the protocol keeps what the callers on the table wait for. -/
theorem Follows.kept {v : OwingWorld} {ev : Event} {w' : World} (hf : Follows logId s v)
    (hstep : Step logId v.world ev w') :
    MapItems w'.items ∧ ∀ call,
      Option.Rel (fun waiting owed => Awaits logId w'.items waiting.2 owed)
        (s.refused call) (v.owed call) := by
  have heff := effect_of_step hstep
  refine ⟨mapItems_effect heff hf.mirrors.maps, ?_⟩
  intro call
  have hcall := hf.owes call
  generalize s.refused call = waiting at hcall ⊢
  generalize v.owed call = owed at hcall ⊢
  cases hcall with
  | none => exact .none
  | some h => exact .some (h.mono (held_effect heff))

theorem Follows.owed_eq_none {v : OwingWorld} {call : ℕ} (hf : Follows logId s v)
    (hnone : s.refused call = none) : v.owed call = none := by
  have hcall := hf.owes call
  rw [hnone] at hcall
  generalize v.owed call = owed at hcall ⊢
  cases hcall
  rfl

/-- Every request to the table is followed by the protocol, with the same result. -/
theorem step_followed {v : OwingWorld} (h : TableStep logId s e s') (hf : Follows logId s v) :
    ∃ v', OwingStep logId v e v' ∧ Follows logId s' v' := by
  have hm := hf.mirrors
  have howes := hf.owes
  cases h with
  | @acquire c now hc =>
    obtain ⟨hresult, hr⟩ := acquireOn_eq hm.represents hc now
    have hstep := Step.acquire (w := v.world) now hc
    obtain ⟨hmaps, howes'⟩ := hf.kept hstep
    rw [hresult]
    exact ⟨_, .acquire hstep, ⟨hr, hmaps, hm.pending⟩, howes'⟩
  | @acquireUnheard c now hc =>
    obtain ⟨-, hr⟩ := acquireOn_eq hm.represents hc now
    have hstep := Step.acquire (w := v.world) now hc
    obtain ⟨hmaps, howes'⟩ := hf.kept hstep
    exact ⟨_, .unheard hstep, ⟨hr, hmaps, hm.pending⟩, howes'⟩
  | @claimRead c call claim now hc hunused hread =>
    rw [claimReadOn_eq hm.represents hc] at hread
    have hstep := Step.claimRead now hc (hm.pending ▸ hunused) hread
    exact ⟨_, .claimRead hstep, ⟨hm.represents, hm.maps, by simp only [hm.pending]⟩, howes⟩
  | @claimReadFailed c call err now hc hunused hread =>
    rw [claimReadOn_eq hm.represents hc] at hread
    have hstep := Step.claimReadFailed now hc (hm.pending ▸ hunused) hread
    exact ⟨_, .claimRead hstep, hm, howes⟩
  | @update c call u out hc hu hsend =>
    obtain ⟨result, w', hstep, hr, hp, hanswer, -⟩ := update_simulated hm hc hu
    obtain ⟨hmaps, howes'⟩ := hf.kept hstep
    rw [hanswer _ hsend]
    exact ⟨_, .update hstep, ⟨hr, hmaps, hp⟩, howes'⟩
  | @refused c call u hc hu hnone hsend =>
    obtain ⟨result, w', hstep, hr, hp, -, hrefused, -⟩ := update_simulated hm hc hu
    obtain ⟨err, rfl, hawaits⟩ := hrefused hsend
    obtain ⟨hmaps, howes'⟩ := hf.kept hstep
    exact ⟨_, .refused (hf.owed_eq_none hnone) hstep, ⟨hr, hmaps, hp⟩,
      owes_update call howes' (.some hawaits)⟩
  | @reread c call u hc hrefused =>
    have hcall := howes call
    rw [hrefused] at hcall
    generalize howed : v.owed call = owed at hcall
    cases hcall with
    | @some _ owed hawaits =>
      rw [answer_classify hm hc u]
      exact ⟨_, .reread howed hawaits.reheard, ⟨hm.represents, hm.maps, hm.pending⟩,
        owes_update call howes .none⟩
  | @updateUnheard c call u retried hc hu hnone =>
    obtain ⟨result, w', hstep, hr, hp, -, -, hawaits⟩ := update_simulated hm hc hu
    obtain ⟨hmaps, howes'⟩ := hf.kept hstep
    cases retried with
    | false => exact ⟨_, .unheard hstep, ⟨hr, hmaps, hp⟩, howes'⟩
    | true =>
      exact ⟨_, .unheardRetried (hf.owed_eq_none hnone) hstep, ⟨hr, hmaps, hp⟩,
        owes_update call howes' (.some hawaits)⟩

/-- The epoch that a caller hears is the one the protocol grants, unless the answer is lost. -/
def Hears (e : TableEvent) (evs : List Event) : Prop :=
  e.grant.toList.Sublist (evs.filterMap Event.grant) ∧
    (e ≠ .unheard → evs.filterMap Event.grant = e.grant.toList)

/-- What callers hear is a run of the protocol. -/
theorem protocol_of_owing {v v' : OwingWorld} (h : OwingStep logId v e v') :
    ∃ evs w', Hears e evs ∧ Trace (Step logId) v.world evs w' ∧ v'.world = w' := by
  cases h with
  | @acquire _ _ _ result h =>
    refine ⟨_, _, ?_, .snoc .refl h, rfl⟩
    cases result <;> simp [Hears, TableEvent.grant, Event.grant]
  | claimRead h => exact ⟨_, _, by simp [Hears, TableEvent.grant, Event.grant], .snoc .refl h, rfl⟩
  | @update _ _ _ u result h =>
    refine ⟨_, _, ?_, .snoc .refl h, rfl⟩
    cases u <;> cases result <;> simp [Hears, TableEvent.grant, Update.event, Event.grant]
  | @refused _ _ _ u err hfree h =>
    refine ⟨_, _, ?_, .snoc .refl h, rfl⟩
    cases u <;> simp [Hears, TableEvent.grant, Update.event, Event.grant]
  | reread howed h => exact ⟨[], _, by simp [Hears, TableEvent.grant], .refl, rfl⟩
  | unheard h => exact ⟨_, _, by simp [Hears, TableEvent.grant], .snoc .refl h, rfl⟩
  | unheardRetried hfree h => exact ⟨_, _, by simp [Hears, TableEvent.grant], .snoc .refl h, rfl⟩

/-- Whatever the table's callers are waiting for, the protocol may owe it. -/
theorem Mirrors.follows (logId : LogId) (hm : Mirrors s w) :
    ∃ v : OwingWorld, v.world = w ∧ Follows logId s v := by
  refine ⟨⟨w, fun call => (s.refused call).map
    fun waiting => .lost (.error (waiting.2.classify logId w.items))⟩, rfl, hm, ?_⟩
  intro call
  simp only
  cases s.refused call with
  | none => exact .none
  | some waiting =>
    refine .some ?_
    unfold Update.classify
    split
    · exact .lostMissing
    · exact .lost _ (by assumption)

/-- Every run on the table is followed by a run of the protocol on one memory store. -/
theorem run_simulated (hm : Mirrors s₀ w₀) (h : Trace (TableStep logId) s₀ events s) :
    ∃ evss w, List.Forall₂ Hears events evss ∧ Trace (Step logId) w₀ evss.flatten w ∧
      Mirrors s w := by
  obtain ⟨v, rfl, hf⟩ := hm.follows logId
  obtain ⟨v', howing, hf'⟩ := h.followed hf (fun _ _ _ _ hstep hf => step_followed hstep hf)
  obtain ⟨evss, w, hhears, htrace, rfl⟩ := howing.simulated (R := fun v w => v.world = w) rfl
    (fun _ _ _ _ hstep heq => heq ▸ protocol_of_owing hstep)
  exact ⟨evss, _, hhears, htrace, hf'.mirrors⟩

/-- The lease protocol on the table is the protocol on one memory store. Every run on the table,
with its second reads, its lost answers and its second attempts, is a run of the protocol with the
same results, but for what a second read hears: the answer its update was given, unless the lease
was missing then and has been acquired since, or that answer was lost. -/
theorem dynamo_run_followed (hm : Mirrors s₀ w₀) (hnone : ∀ call, s₀.refused call = none)
    (h : Trace (TableStep logId) s₀ events s) :
    ∃ v evs, Trace (OwingStep logId) ⟨w₀, fun _ => none⟩ events v ∧
      Trace (Step logId) w₀ evs v.world ∧ Follows logId s v := by
  have hf : Follows logId s₀ ⟨w₀, fun _ => none⟩ := by
    refine ⟨hm, ?_⟩
    intro call
    rw [hnone call]
    exact .none
  obtain ⟨v, howing, hf'⟩ := h.followed hf (fun _ _ _ _ hstep hf => step_followed hstep hf)
  obtain ⟨evss, w, -, htrace, rfl⟩ := howing.simulated (R := fun v w => v.world = w) rfl
    (fun _ _ _ _ hstep heq => heq ▸ protocol_of_owing hstep)
  exact ⟨v, _, howing, htrace, hf'⟩

/-- The epochs heard on the table are among those the protocol grants, in its order, and all of
them while no answer is lost. -/
theorem grants_of_hears (h : List.Forall₂ Hears events evss) :
    (events.filterMap TableEvent.grant).Sublist (evss.flatten.filterMap Event.grant) ∧
      (TableEvent.unheard ∉ events →
        evss.flatten.filterMap Event.grant = events.filterMap TableEvent.grant) := by
  induction h with
  | nil => simp
  | @cons e evs events evss hm _ ih =>
    obtain ⟨hsub, heq⟩ := hm
    have hsplit : (e :: events).filterMap TableEvent.grant =
        e.grant.toList ++ events.filterMap TableEvent.grant := by
      rw [List.filterMap_cons]
      cases e.grant <;> rfl
    rw [List.flatten_cons, List.filterMap_append, hsplit]
    refine ⟨hsub.append ih.1, ?_⟩
    intro hno
    rw [List.mem_cons, not_or] at hno
    rw [heq (Ne.symm hno.1), ih.2 hno.2]

/-- A renewal of a superseded epoch is not answered with a lease, and its second read finds the
lease lost. -/
theorem renewal_refused_of_superseded (hm : Mirrors s w) (hi : LeaseItem logId w.items)
    {epoch stored : Epoch} (hstored : epochAt w.items (leaseKey logId) = some (.u64 stored))
    (hlt : epoch.toNat < stored.toNat) {call : ℕ} {now : SystemTime} :
    (∀ l s', ¬ TableStep logId s (.update call c (.renew now epoch) (.ok l)) s') ∧
    ∀ result s', TableStep logId s (.reread call c (.renew now epoch) result) s' →
      result = .error .lostLease := by
  constructor
  · intro l s' hstep
    obtain ⟨v, rfl, hf⟩ := hm.follows logId
    obtain ⟨v', howing, -⟩ := step_followed hstep hf
    cases howing with
    | update h =>
      have := renew_superseded hi (.snoc .refl h) hstored hlt (List.mem_singleton_self _)
      cases this
  · intro result s' hstep
    cases hstep with
    | reread hc hrefused =>
      rcases hi with habs | ⟨r, h, e, x, hv⟩
      · rw [epochAt_of_absent habs] at hstored
        cases hstored
      · rw [hc, classifyFailedUpdate, get_eq hm.represents logId, MemoryReplicatedKv.get, hv]
        rfl

/-- The same over every run that follows. -/
theorem renewals_refused_of_superseded (hm : Mirrors s w) (hi : LeaseItem logId w.items)
    {epoch stored : Epoch} (hstored : epochAt w.items (leaseKey logId) = some (.u64 stored))
    (hlt : epoch.toNat < stored.toNat) {later : List TableEvent}
    (h : Trace (TableStep logId) s later s') {call : ℕ} {c : LeaseCoordinator}
    {now : SystemTime} :
    (∀ l, .update call c (.renew now epoch) (.ok l) ∉ later) ∧
    ∀ result, .reread call c (.renew now epoch) result ∈ later → result = .error .lostLease := by
  have hat : ∀ e ∈ later, ∃ u v u', TableStep logId u e u' ∧ Mirrors u v ∧
      LeaseItem logId v.items ∧ ∃ stored', epochAt v.items (leaseKey logId) =
        some (.u64 stored') ∧ epoch.toNat < stored'.toNat := by
    intro e he
    obtain ⟨before, u, u', after, hbefore, hstep, -⟩ := h.exists_step_of_mem he
    obtain ⟨evss, v, -, htrace, hm'⟩ := run_simulated hm hbefore
    obtain ⟨stored', hs, hle⟩ := epochLe_trace htrace stored hstored
    exact ⟨u, v, u', hstep, hm', leaseItem_trace hi htrace, stored', hs, hlt.trans_le hle⟩
  constructor
  · intro l hmem
    obtain ⟨u, v, u', hstep, hm', hi', stored', hs, hlt'⟩ := hat _ hmem
    exact (renewal_refused_of_superseded hm' hi' hs hlt').1 l u' hstep
  · intro result hmem
    obtain ⟨u, v, u', hstep, hm', hi', stored', hs, hlt'⟩ := hat _ hmem
    exact (renewal_refused_of_superseded hm' hi' hs hlt').2 result u' hstep

/-- Safety of the lease protocol on DynamoDB under every interleaving of requests: the stored
lease is well formed; the epochs that callers hear of strictly increase and none is above the
stored one, and while no answer is lost they are one, two, three and so on; and once the stored
epoch has passed a holder's, no renewal of it gets a lease again. -/
theorem dynamo_lease_safe (h₀ : Initial logId w₀) (hm : Mirrors s₀ w₀)
    (h : Trace (TableStep logId) s₀ events s) :
    (events.filterMap TableEvent.grant).Pairwise (fun e e' => e.toNat < e'.toNat) ∧
    (TableEvent.unheard ∉ events → (events.filterMap TableEvent.grant).map UInt64.toNat =
      List.range' 1 (events.filterMap TableEvent.grant).length) ∧
    ((get s.table (leaseKey logId) = .error (.notFound (leaseKey logId).str) ∧
        events.filterMap TableEvent.grant = []) ∨
      ∃ item lease, get s.table (leaseKey logId) = .ok item ∧ decodeLease item = .ok lease ∧
        (∀ e ∈ events.filterMap TableEvent.grant, e.toNat ≤ lease.epoch.toNat) ∧
        ∀ epoch : Epoch, epoch.toNat < lease.epoch.toNat → ∀ later s',
          Trace (TableStep logId) s later s' → ∀ call c now,
            (∀ l, .update call c (.renew now epoch) (.ok l) ∉ later) ∧
            ∀ result, .reread call c (.renew now epoch) result ∈ later →
              result = .error .lostLease) := by
  obtain ⟨evss, w, hhears, htrace, hmirrors⟩ := run_simulated hm h
  obtain ⟨hsub, hall⟩ := grants_of_hears hhears
  have hgranted := granted_reachable h₀ htrace
  have hcounts := hgranted.counts
  refine ⟨?_, ?_, ?_⟩
  · have hpair : ((evss.flatten.filterMap Event.grant).map UInt64.toNat).Pairwise (· < ·) := by
      rw [hcounts]
      exact List.pairwise_lt_range'
    exact (List.pairwise_map.mp hpair).sublist hsub
  · intro hno
    rw [← hall hno]
    exact hcounts
  · have hget := get_eq hmirrors.represents logId
    have hi := leaseItem_reachable h₀ htrace
    rcases hi with habs | ⟨r, holder, e, x, hv⟩
    · left
      rw [hget, MemoryReplicatedKv.get, habs]
      refine ⟨rfl, ?_⟩
      rcases hgranted.stored with ⟨hnil, -⟩ | ⟨e, he, -⟩
      · rw [hnil] at hsub
        exact List.sublist_nil.mp hsub
      · rw [epochAt_of_absent habs] at he
        cases he
    · right
      have hstored : epochAt w.items (leaseKey logId) = some (.u64 e) := by
        rw [epochAt, hv, attributeValue_epoch]
      refine ⟨_, _, by rw [hget, MemoryReplicatedKv.get, hv], decodeLease_encodeLease _, ?_, ?_⟩
      · intro e' he'
        have hmem : e'.toNat ∈ (evss.flatten.filterMap Event.grant).map UInt64.toNat :=
          List.mem_map_of_mem (hsub.subset he')
        rw [hcounts, List.mem_range'_1] at hmem
        rcases hgranted.stored with ⟨-, hnone⟩ | ⟨stored, hs, hlen⟩
        · rw [hnone] at hv
          cases hv
        · rw [hstored, Option.some.injEq, Value.u64.injEq] at hs
          subst hs
          simp only
          omega
      · intro epoch hlt later s' hlater call c now
        exact renewals_refused_of_superseded hmirrors (Or.inr ⟨r, holder, e, x, hv⟩) hstored hlt
          hlater

/-- An empty table that no coordinator has touched. -/
def emptyWorld : TableWorld := ⟨.empty, fun _ => none, fun _ => none⟩

theorem mirrors_empty : Mirrors emptyWorld ⟨.empty, fun _ => none⟩ where
  represents := represents_empty
  maps key v h := by simp at h
  pending := rfl

def lateRenewal : Update := .renew ⟨131 * 10 ^ 9⟩ 1

/-- West's renewal is refused while there is no lease, and reread when east has acquired it. West
then takes over, and east's renewal is refused and reread. -/
def takeoverEvents : List TableEvent :=
  [.refused 0 west (.renew ⟨0⟩ 1), .acquire east ⟨0⟩ (.ok eastLease),
    .reread 0 west (.renew ⟨0⟩ 1) (.error .lostLease),
    .claimRead 1 west ⟨120 * 10 ^ 9⟩ (.ok expiredClaim),
    .update 1 west (.claimWrite expiredClaim) (.ok westLease),
    .refused 2 east lateRenewal, .reread 2 east lateRenewal (.error .lostLease)]

/-- The tables after west's first renewal, after east has acquired the lease and after west has
claimed it. -/
def earlyTable : Dynamo.Table := ((Update.renew ⟨0⟩ 1).send west .empty).2

def eastTable : Dynamo.Table := (east.acquireOn earlyTable ⟨0⟩).2

def westTable : Dynamo.Table := ((Update.claimWrite expiredClaim).send west eastTable).2

/-- The worlds of that run whose next step looks at what is pending or refused. -/
def eastWaits : TableWorld :=
  ⟨eastTable, fun _ => none, Function.update (fun _ => none) 0 (some (west, .renew ⟨0⟩ 1))⟩

def westClaimsOn : TableWorld where
  table := eastTable
  pending := Function.update (fun _ => none) 1 (some (west, expiredClaim))
  refused := Function.update eastWaits.refused 0 none

def westHoldsOn : TableWorld :=
  { westClaimsOn with
    table := westTable, pending := westClaimsOn.settled 1 (.claimWrite expiredClaim) }

def eastWaitsAgain : TableWorld where
  table := (lateRenewal.send east westHoldsOn.table).2
  pending := westHoldsOn.settled 2 lateRenewal
  refused := Function.update westHoldsOn.refused 2 (some (east, lateRenewal))

theorem exists_takeover : ∃ s, Trace (TableStep sampleLog) emptyWorld takeoverEvents s := by
  have hearly : ((Update.renew ⟨0⟩ 1).send west emptyWorld.table).1 = none :=
    Option.isNone_iff_eq_none.mp (by decide +kernel)
  have hacquire : (east.acquireOn earlyTable ⟨0⟩).1 = .ok eastLease := by decide +kernel
  have hlost : (Update.renew ⟨0⟩ 1).answer
      (.error (classifyFailedUpdate eastWaits.table west.key)) = .error .lostLease := by
    decide +kernel
  have hread : west.claimReadOn eastTable ⟨120 * 10 ^ 9⟩ = .ok expiredClaim := by decide +kernel
  obtain ⟨out, hout, hclaimed⟩ := Option.map_eq_some_iff.mp
    (show ((Update.claimWrite expiredClaim).send west eastTable).1.map
      (Update.claimWrite expiredClaim).answer = some (.ok westLease) by decide +kernel)
  have hlate : (lateRenewal.send east westHoldsOn.table).1 = none :=
    Option.isNone_iff_eq_none.mp (by decide +kernel)
  have hlost' : lateRenewal.answer
      (.error (classifyFailedUpdate eastWaitsAgain.table east.key)) = .error .lostLease := by
    decide +kernel
  have h₁ : TableStep sampleLog emptyWorld (.refused 0 west (.renew ⟨0⟩ 1)) _ :=
    .refused rfl (.renew _ _) rfl hearly
  have h₂ : TableStep sampleLog ⟨earlyTable, fun _ => none, eastWaits.refused⟩
      (.acquire east ⟨0⟩ (.ok eastLease)) eastWaits :=
    hacquire ▸ .acquire ⟨0⟩ rfl
  have h₃ : TableStep sampleLog eastWaits (.reread 0 west (.renew ⟨0⟩ 1) (.error .lostLease))
      ⟨eastTable, fun _ => none, westClaimsOn.refused⟩ :=
    hlost ▸ .reread rfl rfl
  have h₄ : TableStep sampleLog ⟨eastTable, fun _ => none, westClaimsOn.refused⟩
      (.claimRead 1 west ⟨120 * 10 ^ 9⟩ (.ok expiredClaim)) westClaimsOn :=
    .claimRead _ rfl rfl hread
  have h₅ : TableStep sampleLog westClaimsOn
      (.update 1 west (.claimWrite expiredClaim) (.ok westLease)) westHoldsOn :=
    hclaimed ▸ .update rfl (.claimWrite rfl) hout
  have h₆ : TableStep sampleLog westHoldsOn (.refused 2 east lateRenewal) eastWaitsAgain :=
    .refused rfl (.renew _ _) rfl hlate
  have h₇ : TableStep sampleLog eastWaitsAgain (.reread 2 east lateRenewal _) _ :=
    .reread rfl rfl
  rw [hlost'] at h₇
  exact ⟨_, .snoc (.snoc (.snoc (.snoc (.snoc (.snoc (.snoc .refl h₁) h₂) h₃) h₄) h₅) h₆) h₇⟩

theorem dynamo_run_followed_takeover :
    ∃ s v evs, Trace (OwingStep sampleLog) ⟨⟨.empty, fun _ => none⟩, fun _ => none⟩
        takeoverEvents v ∧
      Trace (Step sampleLog) ⟨.empty, fun _ => none⟩ evs v.world ∧ Follows sampleLog s v := by
  obtain ⟨s, h⟩ := exists_takeover
  exact ⟨s, dynamo_run_followed mirrors_empty (fun _ => rfl) h⟩

/-- East is granted epoch one, and west epoch two. -/
theorem dynamo_lease_safe_takeover :
    (takeoverEvents.filterMap TableEvent.grant).map UInt64.toNat = List.range' 1 2 := by
  obtain ⟨s, h⟩ := exists_takeover
  obtain ⟨-, hcounts, -⟩ :=
    dynamo_lease_safe ⟨FiniteMap.get?_empty, fun _ => rfl⟩ mirrors_empty h
  exact hcounts (by simp [takeoverEvents])

end Coordination
