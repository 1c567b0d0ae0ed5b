import MtcCa.Cloud.DynamoUpdate
import MtcCa.Cloud.Transact

/-! The DynamoDB backend against the in-memory backend: from a table that stores what the memory
holds, a call on each leaves them so and ends alike. -/
namespace Cloud.DynamoDbReplicatedKv

open Text Dynamo MemoryReplicatedKv

variable {t : Table} {items : Store} {key : Key} {k : PrimaryKey} {attrs : Attributes}
  {v : Value} {conditions : List Condition} {condition : Option String} {σ : Substitution}
  {op : Operation} {ops : List Operation} {effect : Effect} {step : PlannedWrite}

/-- Every item is a map. -/
def MapItems (items : Store) : Prop :=
  ∀ key v, items.get? key = some v → ∃ entries, v = .map entries

/-- No increment of an update carries its attribute beyond a `u64`. -/
def UpdateFits (items : Store) (key : Key) (expr : UpdateExpression) : Prop :=
  ∀ entries, items.get? key = some (.map entries) →
    ∀ a ∈ expr.actions, Fits (entries.get? a.attr) a

/-- The updates of the caller name different attributes and stay within a `u64`. -/
def Regular (items : Store) : Operation → Prop
  | .update key expr _ => expr.Plain ∧ UpdateFits items key expr
  | _ => True

/-- The request for an operation on a key that is already cut. -/
def writeOf (k : PrimaryKey) : Operation → WriteItem
  | .put _ value conditions =>
    .put (putAttrs k value) (conditionRequest conditions).1 (conditionRequest conditions).2
  | .update _ expr conditions =>
    .update k (updateRequest expr conditions).1 (some (updateRequest expr conditions).2.1)
      (updateRequest expr conditions).2.2
  | .delete _ conditions =>
    .delete k (conditionRequest conditions).1 (conditionRequest conditions).2
  | .conditionCheck _ conditions =>
    .conditionCheck k (checkRequest conditions).1 (checkRequest conditions).2

theorem buildTransactItem_eq (hk : splitKey op.key = .ok k) :
    buildTransactItem op = .ok (writeOf k op) := by
  cases op with
  | put | update | delete | conditionCheck =>
    simp only [Operation.key] at hk
    simp only [buildTransactItem, hk, Outcome.ok_bind, writeOf]

theorem primaryKey_putAttrs (k : PrimaryKey) (v : Value) : primaryKey (putAttrs k v) = some k := rfl

theorem stored_putAttrs (k : PrimaryKey) (v : Value) : Stored k (putAttrs k v) v where
  pk := rfl
  sk := rfl
  value := ⟨encodeValue v, rfl, decodeValue_encodeValue v⟩

theorem writeOf_key (k : PrimaryKey) (op : Operation) : (writeOf k op).key = some k := by
  cases op with
  | put key value conditions => exact primaryKey_putAttrs k value
  | update | delete | conditionCheck => rfl

/-- An effect on the table and a planned write of the memory that store the same. -/
inductive Lands : Effect → PlannedWrite → Prop where
  | put {key : Key} {k : PrimaryKey} {attrs : Attributes} {v : Value}
      (hk : splitKey key = .ok k) (hs : Stored k attrs v) : Lands (.put k attrs) (.put key v)
  | delete {key : Key} {k : PrimaryKey} (hk : splitKey key = .ok k) :
      Lands (.delete k) (.delete key)
  | noOp : Lands .none .noOp

theorem Lands.represents (h : Lands effect step) (hr : Represents t items) :
    Represents (effect.apply t) (step.apply items) := by
  cases h with
  | put hk hs => exact hr.insert hk hs
  | delete hk => exact hr.erase hk
  | noOp => exact hr

theorem foldl_lands {effects : List Effect} {steps : List PlannedWrite}
    (h : List.Forall₂ Lands effects steps) (hr : Represents t items) :
    Represents (effects.foldl Effect.apply t) (steps.foldl PlannedWrite.apply items) := by
  induction h generalizing t items with
  | nil => exact hr
  | cons hstep _ ih => exact ih (hstep.represents hr)

theorem require_eq {sem : Attributes → Bool} (hvalid : k.valid = true)
    (heval : ∀ item, evaluate condition σ item = .ok (sem item)) :
    require t k condition σ = if sem ((t.get? k).getD .empty) = true then .ok ()
      else .error .conditionalCheckFailed := by
  simp only [require, hvalid, not_true_eq_false, if_false, heval, Outcome.ok_bind]

/-- The condition of a write has the verdict of its conditions on the memory. -/
theorem require_cases (h : Represents t items) (hk : splitKey key = .ok k)
    (heval : ∀ item, evaluate condition σ item =
      .ok (conditions.all fun c => conditionSem c item)) :
    (require t k condition σ = .ok () ∧ checkConditions (items.get? key) conditions = .ok ()) ∨
    (require t k condition σ = .error .conditionalCheckFailed ∧
      ∃ reason,
        checkConditions (items.get? key) conditions = .error (.conditionFailed reason)) := by
  rw [require_eq (splitKey_eq hk).2 heval]
  have hiff : (conditions.all fun c => conditionSem c ((t.get? k).getD .empty)) = true ↔
      checkConditions (items.get? key) conditions = .ok () := all_conditionSem_iff (h.stored hk)
  cases hcheck : checkConditions (items.get? key) conditions with
  | ok u => exact Or.inl ⟨if_pos (hiff.mpr hcheck), rfl⟩
  | error e =>
    obtain ⟨reason, rfl⟩ := checkConditions_error hcheck
    refine Or.inr ⟨if_neg fun hall => ?_, reason, rfl⟩
    rw [hiff.mp hall] at hcheck
    cases hcheck

/-- Both backends plan an operation alike. -/
def Agrees (t : Table) (items : Store) (w : WriteItem) (op : Operation) : Prop :=
  (∃ effect step, w.effect t = .ok effect ∧ plan items op = .ok step ∧ Lands effect step) ∨
    (w.effect t = .error .conditionalCheckFailed ∧
      ∃ reason, plan items op = .error (.conditionFailed reason))

theorem agrees_put (h : Represents t items) (hk : splitKey key = .ok k) (v : Value)
    (conditions : List Condition) :
    Agrees t items (writeOf k (.put key v conditions)) (.put key v conditions) := by
  rcases require_cases h hk (evaluate_conditionRequest conditions) with
    ⟨hreq, hcheck⟩ | ⟨hreq, reason, hcheck⟩
  · refine Or.inl ⟨.put k (putAttrs k v), .put key v, ?_, ?_, .put hk (stored_putAttrs k v)⟩
    · simp only [writeOf, WriteItem.effect, primaryKey_putAttrs, hreq, Outcome.ok_bind]
    · simp only [plan, hcheck, Outcome.ok_bind]
  · refine Or.inr ⟨?_, reason, ?_⟩
    · simp only [writeOf, WriteItem.effect, primaryKey_putAttrs, hreq, Outcome.error_bind]
    · simp only [plan, hcheck, Outcome.error_bind]

theorem agrees_delete (h : Represents t items) (hk : splitKey key = .ok k)
    (conditions : List Condition) :
    Agrees t items (writeOf k (.delete key conditions)) (.delete key conditions) := by
  rcases require_cases h hk (evaluate_conditionRequest conditions) with
    ⟨hreq, hcheck⟩ | ⟨hreq, reason, hcheck⟩
  · refine Or.inl ⟨.delete k, .delete key, ?_, ?_, .delete hk⟩
    · simp only [writeOf, WriteItem.effect, hreq, Outcome.ok_bind]
    · simp only [plan, hcheck, Outcome.ok_bind]
  · refine Or.inr ⟨?_, reason, ?_⟩
    · simp only [writeOf, WriteItem.effect, hreq, Outcome.error_bind]
    · simp only [plan, hcheck, Outcome.error_bind]

theorem agrees_conditionCheck (h : Represents t items) (hk : splitKey key = .ok k)
    (conditions : List Condition) :
    Agrees t items (writeOf k (.conditionCheck key conditions))
      (.conditionCheck key conditions) := by
  rcases require_cases h hk (evaluate_checkRequest conditions) with
    ⟨hreq, hcheck⟩ | ⟨hreq, reason, hcheck⟩
  · refine Or.inl ⟨.none, .noOp, ?_, ?_, .noOp⟩
    · simp only [writeOf, WriteItem.effect, hreq, Outcome.ok_bind]
    · simp only [plan, hcheck, Outcome.ok_bind]
  · refine Or.inr ⟨?_, reason, ?_⟩
    · simp only [writeOf, WriteItem.effect, hreq, Outcome.error_bind]
    · simp only [plan, hcheck, Outcome.error_bind]

/-- The condition of an update holds of a stored item when its conditions hold of the value and all
its actions succeed there. -/
theorem all_updateSems_iff {actions : List UpdateAction} {entries : FiniteMap String Value}
    (hs : Stored k attrs (.map entries)) (hattr : ∀ a ∈ actions, a.attr ≠ "")
    (hfits : ∀ a ∈ actions, Fits (entries.get? a.attr) a) :
    ((updateSems actions conditions).all fun sem => sem attrs) = true ↔
      checkConditions (some (.map entries)) conditions = .ok () ∧
        ∀ a ∈ actions, (actionResult (entries.get? a.attr) a).isSome := by
  obtain ⟨a, hitem, hdecode⟩ := hs.value
  obtain ⟨raw, rfl, hrel⟩ := decodes_map hdecode
  have hpk : (lookup attrs [pkAttr]).isSome = true := by
    rw [lookup, hs.pk, Option.isSome_some]
  have hconditions : (conditions.all fun c => conditionSem c ((some attrs).getD .empty)) = true ↔
      checkConditions (some (.map entries)) conditions = .ok () := all_conditionSem_iff (.some hs)
  have hguards : ((actions.filterMap guardOf).all fun g => g attrs) = true ↔
      ∀ a ∈ actions, (actionResult (entries.get? a.attr) a).isSome := by
    refine all_guards_iff (fun a ha => ?_) hfits
    rw [lookup_entry hitem (hattr a ha)]
    exact hrel a.attr
  simp only [updateSems, List.all_cons, hpk, Bool.true_and, List.all_append, Bool.and_eq_true,
    hguards, List.all_map]
  rw [← hconditions]
  rfl

/-- An update lands with the value the memory computes, or neither backend lands it. -/
theorem update_cases {expr : UpdateExpression} (h : Represents t items) (hmaps : MapItems items)
    (hk : splitKey key = .ok k) (hplain : expr.Plain) (hfits : UpdateFits items key expr)
    (conditions : List Condition) :
    (∃ attrs updated, (writeOf k (.update key expr conditions)).effect t = .ok (.put k attrs) ∧
      plan items (.update key expr conditions) = .ok (.put key updated) ∧
      Stored k attrs updated) ∨
    ((writeOf k (.update key expr conditions)).effect t = .error .conditionalCheckFailed ∧
      ∃ reason, plan items (.update key expr conditions) = .error (.conditionFailed reason)) := by
  obtain ⟨u, hparse, heval, happly⟩ := updateRequest_spec expr conditions
  have hreq := require_eq (t := t) (splitKey_eq hk).2 heval
  have hstored := h.stored hk
  simp only [writeOf, WriteItem.effect, hparse, hreq]
  cases hheld : items.get? key with
  | none =>
    rw [hheld] at hstored
    generalize t.get? k = o at hstored
    cases hstored
    refine Or.inr ⟨by simp [updateSems, lookup], ?_⟩
    cases hcheck : checkConditions none conditions with
    | error e =>
      obtain ⟨reason, rfl⟩ := checkConditions_error hcheck
      exact ⟨reason, by simp only [plan, hheld, hcheck, Outcome.error_bind]⟩
    | ok u =>
      exact ⟨key.str ++ ": item does not exist", by
        simp only [plan, hheld, hcheck, Outcome.ok_bind]⟩
  | some v =>
    obtain ⟨entries, rfl⟩ := hmaps key v hheld
    rw [hheld] at hstored
    generalize t.get? k = o at hstored
    cases hstored with
    | @some attrs _ hs =>
      have hiff := @all_updateSems_iff k attrs conditions expr.actions entries hs hplain.attr_ne
        (hfits entries hheld)
      simp only [Option.getD_some]
      cases hcheck : checkConditions (some (.map entries)) conditions with
      | error e =>
        obtain ⟨reason, rfl⟩ := checkConditions_error hcheck
        refine Or.inr ⟨?_, reason, by simp only [plan, hheld, hcheck, Outcome.error_bind]⟩
        rw [if_neg fun hall => ?_, Outcome.error_bind]
        rw [(hiff.mp hall).1] at hcheck
        cases hcheck
      | ok u' =>
        rcases foldlM_applyUpdateAction_cases entries hplain.nodup with
          ⟨out, hout, heach, -⟩ | ⟨⟨a, ha, hnone⟩, reason, hfail⟩
        · have hall := hiff.mpr ⟨hcheck, fun a ha => by rw [heach a ha, Option.isSome_some]⟩
          obtain ⟨assigned, hassigned, hapart, attrs', hattrs', hs'⟩ :=
            exists_assigned hs hplain hout
          refine Or.inl ⟨attrs', .map out, ?_, ?_, hs'⟩
          · rw [if_pos hall, Outcome.ok_bind, happly attrs assigned hassigned hapart, hattrs']
          · simp only [plan, hheld, hcheck, applyUpdateActions, hout, Outcome.ok_bind]
        · refine Or.inr ⟨?_, reason, ?_⟩
          · rw [if_neg fun hall => ?_, Outcome.error_bind]
            have hsome := (hiff.mp hall).2 a ha
            rw [hnone] at hsome
            cases hsome
          · simp only [plan, hheld, hcheck, applyUpdateActions, hfail, Outcome.ok_bind,
              Outcome.error_bind]

theorem agrees (h : Represents t items) (hmaps : MapItems items) (hk : splitKey op.key = .ok k)
    (hregular : Regular items op) : Agrees t items (writeOf k op) op := by
  cases op with
  | put key value conditions => exact agrees_put h hk value conditions
  | update key expr conditions =>
    rcases update_cases h hmaps hk hregular.1 hregular.2 conditions with
      ⟨attrs, updated, heffect, hplan, hs⟩ | hfail
    · exact Or.inl ⟨_, _, heffect, hplan, .put hk hs⟩
    · exact Or.inr hfail
  | delete key conditions => exact agrees_delete h hk conditions
  | conditionCheck key conditions => exact agrees_conditionCheck h hk conditions

/-- Two calls end alike: with the same result, or with errors of one class. -/
inductive SameOutcome {α : Type} : Except CloudError α → Except CloudError α → Prop where
  | ok (x : α) : SameOutcome (.ok x) (.ok x)
  | notFound (key key' : String) : SameOutcome (.error (.notFound key)) (.error (.notFound key'))
  | conditionFailed (reason reason' : String) :
      SameOutcome (.error (.conditionFailed reason)) (.error (.conditionFailed reason'))

/-- Two calls end alike, and the table still stores what the memory holds. -/
def Simulates {α : Type} (call : Except CloudError α × Table)
    (memory : Except CloudError α × Store) : Prop :=
  SameOutcome call.1 memory.1 ∧ Represents call.2 memory.2

theorem put_simulates (h : Represents t items) (hk : splitKey key = .ok k) (value : Value)
    (conditions : List Condition) :
    Simulates (put t key value conditions) (MemoryReplicatedKv.put items key value conditions) := by
  rcases require_cases h hk (evaluate_conditionRequest conditions) with
    ⟨hreq, hcheck⟩ | ⟨hreq, reason, hcheck⟩
  · simp only [put, hk, putItem, WriteItem.effect, primaryKey_putAttrs, hreq, Outcome.ok_bind,
      MemoryReplicatedKv.put, hcheck]
    exact ⟨.ok (), h.insert hk (stored_putAttrs k value)⟩
  · simp only [put, hk, putItem, WriteItem.effect, primaryKey_putAttrs, hreq, Outcome.error_bind,
      MemoryReplicatedKv.put, hcheck]
    exact ⟨.conditionFailed _ _, h⟩

theorem decodeItemAttrs_of_stored (h : Stored k attrs v) (key : Key) :
    decodeItemAttrs key attrs = .ok ⟨key, v⟩ := by
  obtain ⟨raw, hraw, hdecode⟩ := h.value
  simp only [decodeItemAttrs, hraw, hdecode, Outcome.ok_bind]

theorem atomicUpdate_of_plan {updated : Value} {expr : UpdateExpression}
    (h : plan items (.update key expr conditions) = .ok (.put key updated)) :
    MemoryReplicatedKv.atomicUpdate items key expr conditions =
      (.ok ⟨key, updated⟩, items.insert key updated) := by
  obtain ⟨⟨⟩, hcheck, hplan⟩ := Outcome.bind_eq_ok_iff.mp h
  cases hheld : items.get? key with
  | none =>
    rw [hheld] at hplan
    cases hplan
  | some existing =>
    rw [hheld] at hplan hcheck
    obtain ⟨w, hupdated, hput⟩ := Outcome.bind_eq_ok_iff.mp hplan
    cases hput
    simp only [MemoryReplicatedKv.atomicUpdate, hheld, hcheck, hupdated]

theorem atomicUpdate_of_plan_error {existing : Value} {expr : UpdateExpression} {e : CloudError}
    (hheld : items.get? key = some existing)
    (h : plan items (.update key expr conditions) = .error e) :
    MemoryReplicatedKv.atomicUpdate items key expr conditions = (.error e, items) := by
  simp only [plan, hheld] at h
  rcases Outcome.bind_eq_error_iff.mp h with hcheck | ⟨⟨⟩, hcheck, hplan⟩
  · simp only [MemoryReplicatedKv.atomicUpdate, hheld, hcheck]
  · rcases Outcome.bind_eq_error_iff.mp hplan with hupdated | ⟨w, -, hput⟩
    · simp only [MemoryReplicatedKv.atomicUpdate, hheld, hcheck, hupdated]
    · cases hput

theorem atomicUpdate_simulates {expr : UpdateExpression} (h : Represents t items)
    (hmaps : MapItems items) (hk : splitKey key = .ok k) (hplain : expr.Plain)
    (hfits : UpdateFits items key expr) (conditions : List Condition) :
    Simulates (atomicUpdate t key expr conditions)
      (MemoryReplicatedKv.atomicUpdate items key expr conditions) := by
  rcases update_cases h hmaps hk hplain hfits conditions with
    ⟨attrs, updated, heffect, hplan, hs⟩ | ⟨heffect, reason, hplan⟩
  · simp only [writeOf] at heffect
    rw [atomicUpdate_of_plan hplan]
    simp only [atomicUpdate, hk, updateItem, heffect, Effect.apply, FiniteMap.get?_insert_self,
      decodeItemAttrs_of_stored hs]
    exact ⟨.ok _, h.insert hk hs⟩
  · simp only [writeOf] at heffect
    simp only [atomicUpdate, hk, updateItem, heffect, isConditionFailed,
      Error.conditionalCheckFailed, decide_true, if_true]
    have hstored := h.stored hk
    cases hheld : items.get? key with
    | none =>
      rw [hheld] at hstored
      have hmissing : t.get? k = none := by
        generalize t.get? k = o at hstored
        cases hstored
        rfl
      simp only [classifyFailedUpdate, get, hk, Outcome.ok_bind, getItem, hmissing,
        MemoryReplicatedKv.atomicUpdate, hheld]
      exact ⟨.notFound _ _, h⟩
    | some existing =>
      rw [hheld] at hstored
      obtain ⟨attrs, hfound, hs⟩ : ∃ attrs, t.get? k = some attrs ∧ Stored k attrs existing := by
        generalize t.get? k = o at hstored
        cases hstored with
        | some hs => exact ⟨_, rfl, hs⟩
      rw [atomicUpdate_of_plan_error hheld hplan]
      simp only [classifyFailedUpdate, get, hk, Outcome.ok_bind, getItem, hfound,
        decodeItemAttrs_of_stored hs]
      exact ⟨.conditionFailed _ _, h⟩

/-- An operation and its request. -/
def Requests (op : Operation) (w : WriteItem) : Prop :=
  ∃ k, splitKey op.key = .ok k ∧ w = writeOf k op

variable {writes : List WriteItem}

theorem map_key_eq (h : List.Forall₂ Requests ops writes) :
    writes.map WriteItem.key = ops.map fun op => (splitKey op.key).toOption := by
  induction h with
  | nil => rfl
  | cons hrequest _ ih =>
    obtain ⟨k, hk, rfl⟩ := hrequest
    rw [List.map_cons, List.map_cons, ih, writeOf_key, hk]
    rfl

/-- Different keys are different items of the table. -/
theorem nodup_key (h : List.Forall₂ Requests ops writes)
    (hsplit : ∀ op ∈ ops, ∃ k, splitKey op.key = .ok k)
    (hnodup : (ops.map Operation.key).Nodup) : (writes.map WriteItem.key).Nodup := by
  have hmap : writes.map WriteItem.key =
      (ops.map Operation.key).map fun key => (splitKey key).toOption := by
    rw [map_key_eq h, List.map_map]
    rfl
  rw [hmap]
  refine List.Nodup.map_on ?_ hnodup
  intro key hkey key' hkey' heq
  obtain ⟨op, hop, rfl⟩ := List.mem_map.mp hkey
  obtain ⟨op', hop', rfl⟩ := List.mem_map.mp hkey'
  obtain ⟨k, hk⟩ := hsplit op hop
  obtain ⟨k', hk'⟩ := hsplit op' hop'
  simp only [hk, hk', Except.toOption, Option.some.injEq] at heq
  subst heq
  exact splitKey_inj hk hk'

/-- Both backends plan all operations, or each meets a failed condition. -/
theorem mapM_cases (h : List.Forall₂ (fun op w => Agrees t items w op) ops writes) :
    (∃ effects steps, writes.mapM (WriteItem.effect t) = .ok effects ∧
      ops.mapM (plan items) = .ok steps ∧ List.Forall₂ Lands effects steps) ∨
    ((∃ e, writes.mapM (WriteItem.effect t) = .error e) ∧
      (∃ w ∈ writes, w.effect t = .error .conditionalCheckFailed) ∧
      ∃ reason, ops.mapM (plan items) = .error (.conditionFailed reason)) := by
  induction h with
  | nil => exact Or.inl ⟨[], [], rfl, rfl, .nil⟩
  | @cons op w ops writes hagrees _ ih =>
    rw [List.mapM_cons, List.mapM_cons]
    rcases hagrees with ⟨effect, step, heffect, hplan, hlands⟩ | ⟨heffect, reason, hplan⟩
    · rw [heffect, hplan, Outcome.ok_bind, Outcome.ok_bind]
      rcases ih with ⟨effects, steps, heffects, hplans, hall⟩ |
        ⟨⟨e, he⟩, ⟨w', hw', hfailed⟩, reason, hreason⟩
      · rw [heffects, hplans]
        exact Or.inl ⟨effect :: effects, step :: steps, rfl, rfl, .cons hlands hall⟩
      · rw [he, hreason]
        exact Or.inr ⟨⟨e, rfl⟩, ⟨w', List.mem_cons_of_mem _ hw', hfailed⟩, reason, rfl⟩
    · rw [heffect, hplan]
      exact Or.inr ⟨⟨_, rfl⟩, ⟨w, List.mem_cons_self .., heffect⟩, reason, rfl⟩

/-- No request of the backend is malformed. -/
theorem not_invalid (h : List.Forall₂ (fun op w => Agrees t items w op) ops writes) :
    writes.any (fun w => invalid (w.effect t)) = false := by
  rw [List.any_eq_false]
  intro w hw
  obtain ⟨op, -, hagrees⟩ := Outcome.exists_of_mem_right h hw
  rcases hagrees with ⟨effect, step, heffect, -, -⟩ | ⟨heffect, -⟩
  · simp [heffect, invalid]
  · simp [heffect, invalid, Error.conditionalCheckFailed, Error.validation]

theorem transact_simulates (h : Represents t items) (hmaps : MapItems items)
    (hlower : 1 ≤ ops.length) (hupper : ops.length ≤ 100)
    (hnodup : (ops.map Operation.key).Nodup)
    (hsplit : ∀ op ∈ ops, ∃ k, splitKey op.key = .ok k) (hregular : ∀ op ∈ ops, Regular items op) :
    Simulates (transact t ops) (MemoryReplicatedKv.transact items ops) := by
  obtain ⟨writes, hwrites, hrequests⟩ : ∃ writes, ops.mapM buildTransactItem = .ok writes ∧
      List.Forall₂ (fun op w => Requests op w ∧ Agrees t items w op) ops writes := by
    refine Outcome.exists_mapM_eq_ok fun op hop => ?_
    obtain ⟨k, hk⟩ := hsplit op hop
    exact ⟨writeOf k op, buildTransactItem_eq hk, ⟨k, hk, rfl⟩, agrees h hmaps hk (hregular op hop)⟩
  have hagrees := hrequests.imp fun _ _ h => h.2
  have hnodupKeys := nodup_key (hrequests.imp fun _ _ h => h.1) hsplit hnodup
  have hlength := hrequests.length_eq
  have hempty : writes.isEmpty = false := by
    cases writes with
    | nil =>
      rw [List.length_nil] at hlength
      omega
    | cons => rfl
  have haccepted : ¬ (writes.isEmpty = true ∨ 100 < writes.length ∨
      ¬ (writes.map WriteItem.key).Nodup ∨
        writes.any (fun w => invalid (w.effect t)) = true) := by
    rw [hempty, not_invalid hagrees]
    simp only [Bool.false_eq_true, false_or, or_false, not_or, not_not]
    exact ⟨by omega, hnodupKeys⟩
  simp only [transact, hwrites, transactWriteItems, if_neg haccepted]
  rcases mapM_cases hagrees with ⟨effects, steps, heffects, hplans, hall⟩ |
    ⟨⟨e, he⟩, ⟨w, hw, hfailed⟩, reason, hreason⟩
  · simp only [heffects, MemoryReplicatedKv.transact, hplans]
    exact ⟨.ok (), foldl_lands hall h⟩
  · have hany : anyConditionCheckFailed
        (writes.map fun w => cancellationReason (w.effect t)) = true := by
      rw [anyConditionCheckFailed, List.any_map, List.any_eq_true]
      exact ⟨w, hw, by simp [hfailed, cancellationReason]⟩
    simp only [he, MemoryReplicatedKv.transact, hreason, mapTransactWriteItemsError,
      Error.transactionCanceled, hany, and_self, if_true]
    exact ⟨.conditionFailed _ _, h⟩

/-- From a table that stores the memory's items, all of them maps, every put, update and transaction
ends as it does on the memory, and stores what the memory then holds. -/
theorem table_simulates_memory (h : Represents t items) (hmaps : MapItems items) :
    (∀ key value conditions, (∃ k, splitKey key = .ok k) →
      Simulates (put t key value conditions)
        (MemoryReplicatedKv.put items key value conditions)) ∧
    (∀ key (expr : UpdateExpression) conditions, (∃ k, splitKey key = .ok k) → expr.Plain →
      UpdateFits items key expr →
        Simulates (atomicUpdate t key expr conditions)
          (MemoryReplicatedKv.atomicUpdate items key expr conditions)) ∧
    ∀ ops : List Operation, 1 ≤ ops.length → ops.length ≤ 100 →
      (ops.map Operation.key).Nodup → (∀ op ∈ ops, ∃ k, splitKey op.key = .ok k) →
      (∀ op ∈ ops, Regular items op) →
        Simulates (transact t ops) (MemoryReplicatedKv.transact items ops) := by
  refine ⟨?_, ?_, ?_⟩
  · rintro key value conditions ⟨k, hk⟩
    exact put_simulates h hk value conditions
  · rintro key expr conditions ⟨k, hk⟩ hplain hfits
    exact atomicUpdate_simulates h hmaps hk hplain hfits conditions
  · intro ops hlower hupper hnodup hsplit hregular
    exact transact_simulates h hmaps hlower hupper hnodup hsplit hregular

/-- A counter, and what the table stores of it. -/
def counterKey : PrimaryKey := ⟨"log", "next"⟩

def counterValue : Value := .map (FiniteMap.empty.insert "next" (.u64 1))

def counterTable : Table := FiniteMap.empty.insert counterKey (putAttrs counterKey counterValue)

def counterStore : Store := FiniteMap.empty.insert ⟨"log/next"⟩ counterValue

theorem splitKey_counter : splitKey ⟨"log/next"⟩ = .ok counterKey := by rfl

theorem represents_counter : Represents counterTable counterStore :=
  represents_empty.insert splitKey_counter (stored_putAttrs counterKey counterValue)

def bump : UpdateExpression := ⟨[.increment "next" 1, .set "owner" (.string "a")]⟩

theorem counter_simulates_memory :
    Simulates (put counterTable ⟨"log/next"⟩ counterValue [.notExists])
        (MemoryReplicatedKv.put counterStore ⟨"log/next"⟩ counterValue [.notExists]) ∧
      Simulates (atomicUpdate counterTable ⟨"log/next"⟩ bump [.exists])
        (MemoryReplicatedKv.atomicUpdate counterStore ⟨"log/next"⟩ bump [.exists]) ∧
      Simulates (transact counterTable [.update ⟨"log/next"⟩ bump [], .delete ⟨"log/last"⟩ []])
        (MemoryReplicatedKv.transact counterStore
          [.update ⟨"log/next"⟩ bump [], .delete ⟨"log/last"⟩ []]) := by
  have hlast : splitKey ⟨"log/last"⟩ = .ok ⟨"log", "last"⟩ := by rfl
  have hmaps : MapItems counterStore := by
    intro key v h
    rw [counterStore, FiniteMap.get?_insert, FiniteMap.get?_empty] at h
    split at h
    · cases h
      exact ⟨_, rfl⟩
    · cases h
  have hplain : bump.Plain := ⟨by decide, by decide⟩
  have hfits : UpdateFits counterStore ⟨"log/next"⟩ bump := by
    intro entries h
    rw [counterStore, FiniteMap.get?_insert_self] at h
    cases h
    simp [bump, Fits, UpdateAction.attr]
  obtain ⟨hput, hupdate, htransact⟩ := table_simulates_memory represents_counter hmaps
  refine ⟨hput _ _ _ ⟨_, splitKey_counter⟩, hupdate _ _ _ ⟨_, splitKey_counter⟩ hplain hfits, ?_⟩
  refine htransact _ (by decide) (by decide) (by decide) ?_ ?_
  · simp only [List.forall_mem_cons, List.not_mem_nil, false_imp_iff, implies_true, and_true]
    exact ⟨⟨_, splitKey_counter⟩, ⟨_, hlast⟩⟩
  · simp only [List.forall_mem_cons, List.not_mem_nil, false_imp_iff, implies_true, and_true]
    exact ⟨⟨hplain, hfits⟩, trivial⟩

end Cloud.DynamoDbReplicatedKv
