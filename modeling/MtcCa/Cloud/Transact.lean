import MtcCa.Cloud.ReplicatedKv

/-! What a transaction leaves behind, read key by key. Pass 1 computes every update from the
items before the transaction, so an update of a key that an earlier operation of the same
transaction wrote does not see that write. -/
namespace Cloud

open MemoryReplicatedKv

def Operation.key : Operation → Key
  | .put key _ _ => key
  | .update key _ _ => key
  | .delete key _ => key
  | .conditionCheck key _ => key

def Operation.conditions : Operation → List Condition
  | .put _ _ conditions => conditions
  | .update _ _ conditions => conditions
  | .delete _ conditions => conditions
  | .conditionCheck _ conditions => conditions

variable {items items' : Store} {ops pre post : List Operation} {op : Operation} {key : Key}
  {held : Option Value}

/-- The operation writes the item at `key`. -/
def Operation.Writes (key : Key) : Operation → Prop
  | .put k _ _ => k = key
  | .update k _ _ => k = key
  | .delete k _ => k = key
  | .conditionCheck _ _ => False

instance : Decidable (Operation.Writes key op) :=
  match op with
  | .put k _ _ => inferInstanceAs (Decidable (k = key))
  | .update k _ _ => inferInstanceAs (Decidable (k = key))
  | .delete k _ => inferInstanceAs (Decidable (k = key))
  | .conditionCheck _ _ => inferInstanceAs (Decidable False)

/-- The write of one operation, its conditions apart, on the items as they stand. -/
def Operation.effect (items : Store) : Operation → Except CloudError Store
  | .put key value _ => .ok (items.insert key value)
  | .update key expr _ =>
    match items.get? key with
    | none => .error (.conditionFailed (key.str ++ ": item does not exist"))
    | some existing => do
      let updated ← applyUpdateActions existing expr
      .ok (items.insert key updated)
  | .delete key _ => .ok (items.erase key)
  | .conditionCheck _ _ => .ok items

/-- The writes of a list of operations, one after another. -/
def applyInOrder (items : Store) (ops : List Operation) : Except CloudError Store :=
  ops.foldlM Operation.effect items

/-- What an operation does to the value held at one key. -/
def Operation.effectAt (key : Key) (held : Option Value) : Operation →
    Except CloudError (Option Value)
  | .put k value _ => .ok (if k = key then some value else held)
  | .update k expr _ =>
    if k = key then
      match held with
      | none => .error (.conditionFailed (key.str ++ ": item does not exist"))
      | some existing => do
        let updated ← applyUpdateActions existing expr
        .ok (some updated)
    else .ok held
  | .delete k _ => .ok (if k = key then none else held)
  | .conditionCheck _ _ => .ok held

/-- The value at one key after the operations, in list order, that touch it. -/
def heldAfter (key : Key) (held : Option Value) (ops : List Operation) :
    Except CloudError (Option Value) :=
  ops.foldlM (Operation.effectAt key) held

theorem Operation.effectAt_of_not_writes (h : ¬ op.Writes key) :
    op.effectAt key held = .ok held := by
  cases op <;> simp_all [Writes, effectAt]

/-- A write lands on every key exactly as its key-local reading says. -/
theorem Operation.effect_get? (h : op.effect items = .ok items') (key : Key) :
    op.effectAt key (items.get? key) = .ok (items'.get? key) := by
  cases op with
  | put k value conditions =>
    cases h
    by_cases hk : k = key
    · simp [effectAt, hk]
    · simp [effectAt, hk, FiniteMap.get?_insert_ne (Ne.symm hk)]
  | update k expr conditions =>
    simp only [effect] at h
    cases hget : items.get? k with
    | none => simp [hget] at h
    | some existing =>
      simp only [hget] at h
      obtain ⟨updated, hupd, hok⟩ := Outcome.bind_eq_ok_iff.mp h
      cases hok
      by_cases hk : k = key
      · subst hk
        simp [effectAt, hget, hupd]
      · simp [effectAt, hk, FiniteMap.get?_insert_ne (Ne.symm hk)]
  | delete k conditions =>
    cases h
    by_cases hk : k = key
    · simp [effectAt, hk]
    · simp [effectAt, hk, FiniteMap.get?_erase_ne (Ne.symm hk)]
  | conditionCheck k conditions =>
    cases h
    rfl

/-- An operation applies as a whole as soon as it applies at every key. -/
theorem Operation.exists_effect (h : ∀ key, ∃ v, op.effectAt key (items.get? key) = .ok v) :
    ∃ items', op.effect items = .ok items' := by
  cases op with
  | put k value conditions => exact ⟨_, rfl⟩
  | update k expr conditions =>
    obtain ⟨v, hv⟩ := h k
    simp only [effectAt, if_true] at hv
    cases hget : items.get? k with
    | none => simp [hget] at hv
    | some existing =>
      simp only [hget] at hv
      obtain ⟨updated, hupd, -⟩ := Outcome.bind_eq_ok_iff.mp hv
      exact ⟨items.insert k updated, by simp [effect, hget, hupd]⟩
  | delete k conditions => exact ⟨_, rfl⟩
  | conditionCheck k conditions => exact ⟨_, rfl⟩

/-- Writing in order succeeds with some items exactly when every key ends with its value. -/
theorem applyInOrder_eq_ok_iff :
    applyInOrder items ops = .ok items' ↔
      ∀ key, heldAfter key (items.get? key) ops = .ok (items'.get? key) := by
  induction ops generalizing items with
  | nil =>
    simp only [applyInOrder, heldAfter, List.foldlM_nil]
    constructor
    · rintro h key
      cases h
      rfl
    · intro h
      congr 1
      apply FiniteMap.ext
      intro key
      exact Except.ok.inj (h key)
  | cons op ops ih =>
    simp only [applyInOrder, heldAfter, List.foldlM_cons, Outcome.bind_eq_ok_iff] at ih ⊢
    constructor
    · rintro ⟨mid, hop, hrest⟩ key
      exact ⟨_, Operation.effect_get? hop key, ih.mp hrest key⟩
    · intro h
      obtain ⟨mid, hop⟩ : ∃ mid, op.effect items = .ok mid :=
        Operation.exists_effect (fun key => ⟨_, (h key).choose_spec.1⟩)
      refine ⟨mid, hop, ih.mpr ?_⟩
      intro key
      obtain ⟨v, hv, hrest⟩ := h key
      rw [Operation.effect_get? hop key] at hv
      cases hv
      exact hrest

namespace MemoryReplicatedKv

/-- What a planned write does to the value held at one key. -/
def PlannedWrite.applyAt (key : Key) (held : Option Value) : PlannedWrite → Option Value
  | .put k value => if k = key then some value else held
  | .delete k => if k = key then none else held
  | .noOp => held

theorem PlannedWrite.apply_get? (step : PlannedWrite) (items : Store) (key : Key) :
    (step.apply items).get? key = step.applyAt key (items.get? key) := by
  cases step with
  | put k value => simp only [apply, applyAt, FiniteMap.get?_insert, eq_comm]
  | delete k => simp only [apply, applyAt, FiniteMap.get?_erase, eq_comm]
  | noOp => rfl

theorem foldl_apply_get? (planned : List PlannedWrite) (items : Store) (key : Key) :
    (planned.foldl PlannedWrite.apply items).get? key =
      planned.foldl (PlannedWrite.applyAt key) (items.get? key) := by
  induction planned generalizing items with
  | nil => rfl
  | cons step planned ih => rw [List.foldl_cons, List.foldl_cons, ih, step.apply_get?]

/-- What a transaction does to the value held at one key: pass 1 fixes it from the items
before the transaction. -/
def plannedAt (items : Store) (key : Key) (held : Option Value) : Operation → Option Value
  | .put k value _ => if k = key then some value else held
  | .update k expr _ =>
    if k = key then (items.get? key).bind (fun v => (applyUpdateActions v expr).toOption)
    else held
  | .delete k _ => if k = key then none else held
  | .conditionCheck _ _ => held

theorem plannedAt_of_not_writes (h : ¬ op.Writes key) : plannedAt items key held op = held := by
  cases op <;> simp_all [Operation.Writes, plannedAt]

theorem plan_applyAt {step : PlannedWrite} (h : plan items op = .ok step) (held : Option Value) :
    step.applyAt key held = plannedAt items key held op := by
  cases op with
  | put k value conditions =>
    obtain ⟨-, -, hok⟩ := Outcome.bind_eq_ok_iff.mp h
    cases hok
    rfl
  | update k expr conditions =>
    obtain ⟨-, -, hok⟩ := Outcome.bind_eq_ok_iff.mp h
    cases hget : items.get? k with
    | none => simp [hget] at hok
    | some existing =>
      simp only [hget] at hok
      obtain ⟨updated, hupd, hput⟩ := Outcome.bind_eq_ok_iff.mp hok
      cases hput
      by_cases hk : k = key
      · subst hk
        simp [PlannedWrite.applyAt, plannedAt, hget, hupd, Except.toOption]
      · simp [PlannedWrite.applyAt, plannedAt, hk]
  | delete k conditions =>
    obtain ⟨-, -, hok⟩ := Outcome.bind_eq_ok_iff.mp h
    cases hok
    rfl
  | conditionCheck k conditions =>
    obtain ⟨-, -, hok⟩ := Outcome.bind_eq_ok_iff.mp h
    cases hok
    rfl

theorem foldl_applyAt_eq {planned : List PlannedWrite}
    (h : List.Forall₂ (fun op step => plan items op = .ok step) ops planned) (held : Option Value) :
    planned.foldl (PlannedWrite.applyAt key) held = ops.foldl (plannedAt items key) held := by
  induction h generalizing held with
  | nil => rfl
  | cons hstep _ ih => rw [List.foldl_cons, List.foldl_cons, plan_applyAt hstep, ih]

/-- Every operation passes pass 1. -/
def Admitted (items : Store) (ops : List Operation) : Prop :=
  ∀ op ∈ ops, ∃ step, plan items op = .ok step

theorem conditions_of_plan {step : PlannedWrite} (h : plan items op = .ok step) :
    checkConditions (items.get? op.key) op.conditions = .ok () := by
  cases op with
  | put k value conditions =>
    obtain ⟨⟨⟩, hcond, -⟩ := Outcome.bind_eq_ok_iff.mp h
    exact hcond
  | update k expr conditions =>
    obtain ⟨⟨⟩, hcond, -⟩ := Outcome.bind_eq_ok_iff.mp h
    exact hcond
  | delete k conditions =>
    obtain ⟨⟨⟩, hcond, -⟩ := Outcome.bind_eq_ok_iff.mp h
    exact hcond
  | conditionCheck k conditions =>
    obtain ⟨⟨⟩, hcond, -⟩ := Outcome.bind_eq_ok_iff.mp h
    exact hcond

theorem transact_of_admitted (h : Admitted items ops) :
    ∃ items', transact items ops = (.ok (), items') ∧
      ∀ key, items'.get? key = ops.foldl (plannedAt items key) (items.get? key) := by
  obtain ⟨planned, hplanned, -⟩ := Outcome.exists_mapM_eq_ok (P := fun _ _ => True)
    (fun op hop => (h op hop).imp (fun _ hstep => ⟨hstep, trivial⟩))
  refine ⟨planned.foldl PlannedWrite.apply items, by rw [transact, hplanned], ?_⟩
  intro key
  rw [foldl_apply_get?, foldl_applyAt_eq (Outcome.forall₂_of_mapM_eq_ok hplanned)]

/-- A rejected transaction returns an error and the items as they were. -/
theorem transact_of_not_admitted (h : ¬ Admitted items ops) :
    ∃ e, transact items ops = (.error e, items) := by
  cases hplanned : ops.mapM (plan items) with
  | error e => exact ⟨e, by rw [transact, hplanned]⟩
  | ok planned =>
    refine absurd ?_ h
    intro op hop
    obtain ⟨i, hi, rfl⟩ := List.getElem_of_mem hop
    exact ⟨_, (List.forall₂_iff_get.mp (Outcome.forall₂_of_mapM_eq_ok hplanned)).2 i hi
      (by rw [← (Outcome.forall₂_of_mapM_eq_ok hplanned).length_eq]; exact hi)⟩

/-- One call loses nothing: an error changes no item, and success leaves what the writes
leave when made one after another. -/
def LosesNothing (items : Store) (ops : List Operation) : Prop :=
  (∀ e, (transact items ops).1 = .error e → (transact items ops).2 = items) ∧
    ((transact items ops).1 = .ok () → applyInOrder items ops = .ok (transact items ops).2)

/-- At its turn every update applies to what its key then holds, and an update that is the
last write of its key gives there what it gives on the items before the transaction. -/
def UpdatesSettled (items : Store) (ops : List Operation) : Prop :=
  ∀ pre key expr conditions post, ops = pre ++ .update key expr conditions :: post →
    ∃ v v', heldAfter key (items.get? key) pre = .ok (some v) ∧
      applyUpdateActions v expr = .ok v' ∧
      ((∀ op ∈ post, ¬ op.Writes key) →
        ∃ v₀, items.get? key = some v₀ ∧ applyUpdateActions v₀ expr = .ok v')

theorem heldAfter_of_not_writes (h : ∀ op ∈ ops, ¬ op.Writes key) :
    heldAfter key held ops = .ok held := by
  induction ops generalizing held with
  | nil => rfl
  | cons op ops ih =>
    rw [heldAfter, List.foldlM_cons,
      Operation.effectAt_of_not_writes (h op (List.mem_cons_self ..))]
    exact ih (fun o ho => h o (List.mem_cons_of_mem _ ho))

theorem foldl_plannedAt_of_not_writes (h : ∀ op ∈ ops, ¬ op.Writes key) :
    ops.foldl (plannedAt items key) held = held := by
  induction ops generalizing held with
  | nil => rfl
  | cons op ops ih =>
    rw [List.foldl_cons, plannedAt_of_not_writes (h op (List.mem_cons_self ..))]
    exact ih (fun o ho => h o (List.mem_cons_of_mem _ ho))

/-- Either no operation writes a key, or there is a last one that does. -/
theorem last_write (key : Key) (ops : List Operation) :
    (∀ op ∈ ops, ¬ op.Writes key) ∨
      ∃ pre op post, ops = pre ++ op :: post ∧ op.Writes key ∧ ∀ o ∈ post, ¬ o.Writes key := by
  induction ops with
  | nil => exact Or.inl (fun op hop => absurd hop (List.not_mem_nil))
  | cons op ops ih =>
    rcases ih with hnone | ⟨pre, w, post, rfl, hw, hpost⟩
    · by_cases hop : op.Writes key
      · exact Or.inr ⟨[], op, ops, rfl, hop, hnone⟩
      · left
        intro o ho
        rcases List.mem_cons.mp ho with rfl | ho
        · exact hop
        · exact hnone o ho
    · exact Or.inr ⟨op :: pre, w, post, rfl, hw, hpost⟩

/-- Splitting the history of a key at one operation. -/
theorem heldAfter_split {v : Option Value} :
    heldAfter key held (pre ++ op :: post) = .ok v ↔
      ∃ mid next, heldAfter key held pre = .ok mid ∧ op.effectAt key mid = .ok next ∧
        heldAfter key next post = .ok v := by
  simp only [heldAfter, List.foldlM_append, List.foldlM_cons, Outcome.bind_eq_ok_iff]
  constructor
  · rintro ⟨mid, hpre, next, hop, hpost⟩
    exact ⟨mid, next, hpre, hop, hpost⟩
  · rintro ⟨mid, next, hpre, hop, hpost⟩
    exact ⟨mid, hpre, next, hop, hpost⟩

/-- An update applies at its own key exactly to a value its expression accepts. -/
theorem effectAt_update_self {expr : UpdateExpression} {conditions : List Condition}
    {next : Option Value} :
    (Operation.update key expr conditions).effectAt key held = .ok next ↔
      ∃ v v', held = some v ∧ applyUpdateActions v expr = .ok v' ∧ next = some v' := by
  cases held with
  | none => simp [Operation.effectAt]
  | some v =>
    simp only [Operation.effectAt, if_true, Outcome.bind_eq_ok_iff, Except.ok.injEq]
    constructor
    · rintro ⟨v', hupd, rfl⟩
      exact ⟨v, v', rfl, hupd, rfl⟩
    · rintro ⟨_, v', ⟨rfl⟩, hupd, rfl⟩
      exact ⟨v', hupd, rfl⟩

/-- Every prefix of a settled transaction applies in order at every key. -/
theorem UpdatesSettled.exists_heldAfter (h : UpdatesSettled items ops) (key : Key)
    (hops : ops = pre ++ post) : ∃ held, heldAfter key (items.get? key) pre = .ok held := by
  induction pre using List.reverseRecOn generalizing post with
  | nil => exact ⟨_, rfl⟩
  | append_singleton pre op ih =>
    rw [List.append_assoc, List.singleton_append] at hops
    obtain ⟨held, hheld⟩ := ih hops
    have hstep : ∃ next, op.effectAt key held = .ok next := by
      cases op with
      | put k value conditions => exact ⟨_, rfl⟩
      | update k expr conditions =>
        by_cases hk : k = key
        · subst hk
          obtain ⟨v, v', hv, hupd, -⟩ := h pre k expr conditions post hops
          rw [hheld, Except.ok.injEq] at hv
          exact ⟨some v', effectAt_update_self.mpr ⟨v, v', hv, hupd, rfl⟩⟩
        · exact ⟨held, Operation.effectAt_of_not_writes hk⟩
      | delete k conditions => exact ⟨_, rfl⟩
      | conditionCheck k conditions => exact ⟨_, rfl⟩
    obtain ⟨next, hnext⟩ := hstep
    exact ⟨next, heldAfter_split.mpr ⟨held, next, hheld, hnext, rfl⟩⟩

/-- Where the updates are settled, each key ends with what the transaction writes there. -/
theorem UpdatesSettled.heldAfter_eq (h : UpdatesSettled items ops) (key : Key) :
    heldAfter key (items.get? key) ops =
      .ok (ops.foldl (plannedAt items key) (items.get? key)) := by
  rcases last_write key ops with hnone | ⟨pre, op, post, rfl, hwrites, hpost⟩
  · rw [heldAfter_of_not_writes hnone, foldl_plannedAt_of_not_writes hnone]
  · obtain ⟨mid, hmid⟩ := h.exists_heldAfter key rfl
    rw [List.foldl_append, List.foldl_cons, foldl_plannedAt_of_not_writes hpost]
    refine heldAfter_split.mpr ⟨mid, _, hmid, ?_, heldAfter_of_not_writes hpost⟩
    cases op with
    | put k value conditions =>
      cases hwrites
      simp [Operation.effectAt, plannedAt]
    | update k expr conditions =>
      cases hwrites
      obtain ⟨v, v', hv, hupd, hsame⟩ := h pre _ expr conditions post rfl
      obtain ⟨v₀, hv₀, hupd₀⟩ := hsame hpost
      rw [hmid, Except.ok.injEq] at hv
      refine effectAt_update_self.mpr ⟨v, v', hv, hupd, ?_⟩
      simp [plannedAt, hv₀, hupd₀, Except.toOption]
    | delete k conditions =>
      cases hwrites
      simp [Operation.effectAt, plannedAt]
    | conditionCheck k conditions => cases hwrites

/-- If each key ends with what the transaction writes there, the updates are settled. -/
theorem updatesSettled_of_heldAfter
    (h : ∀ key, heldAfter key (items.get? key) ops =
      .ok (ops.foldl (plannedAt items key) (items.get? key))) : UpdatesSettled items ops := by
  rintro pre key expr conditions post rfl
  obtain ⟨mid, next, hpre, hop, hrest⟩ := heldAfter_split.mp (h key)
  obtain ⟨v, v', rfl, hupd, rfl⟩ := effectAt_update_self.mp hop
  refine ⟨v, v', hpre, hupd, ?_⟩
  intro hpost
  rw [heldAfter_of_not_writes hpost, List.foldl_append, List.foldl_cons,
    foldl_plannedAt_of_not_writes hpost, Except.ok.injEq] at hrest
  simp only [plannedAt, if_true] at hrest
  obtain ⟨v₀, hv₀, hsome⟩ := Option.bind_eq_some_iff.mp hrest.symm
  refine ⟨v₀, hv₀, ?_⟩
  cases hupd₀ : applyUpdateActions v₀ expr with
  | error e => simp [hupd₀, Except.toOption] at hsome
  | ok w =>
    simp only [hupd₀, Except.toOption, Option.some.injEq] at hsome
    rw [hsome]

/-- Exactly when a transaction loses no write: it is rejected, or its updates are settled. -/
theorem transact_losesNothing_iff (items : Store) (ops : List Operation) :
    LosesNothing items ops ↔ ¬ Admitted items ops ∨ UpdatesSettled items ops := by
  by_cases hadm : Admitted items ops
  · obtain ⟨items', htx, hget⟩ := transact_of_admitted hadm
    have hiff : LosesNothing items ops ↔ applyInOrder items ops = .ok items' := by
      simp [LosesNothing, htx]
    rw [hiff, applyInOrder_eq_ok_iff]
    constructor
    · intro h
      right
      apply updatesSettled_of_heldAfter
      intro key
      rw [h key, hget key]
    · rintro (hrej | hset) key
      · exact absurd hadm hrej
      · rw [hset.heldAfter_eq key, hget key]
  · obtain ⟨e, htx⟩ := transact_of_not_admitted hadm
    simp [LosesNothing, htx, hadm]

/-- A counter item, and a transaction that increments it twice. -/
def counterItems : Store :=
  FiniteMap.empty.insert ⟨"counter"⟩ (.map (FiniteMap.empty.insert "next" (.u64 1)))

def incrementTwice : List Operation :=
  [.update ⟨"counter"⟩ ⟨[.increment "next" 1]⟩ [], .update ⟨"counter"⟩ ⟨[.increment "next" 1]⟩ []]

/-- The first of two increments of one counter is dropped. -/
theorem transact_drops_increment :
    (transact counterItems incrementTwice).1 = .ok () ∧
      ¬ LosesNothing counterItems incrementTwice := by
  have hok : (transact counterItems incrementTwice).1 = .ok () := by decide +kernel
  refine ⟨hok, ?_⟩
  intro h
  have heq := h.2 hok
  revert heq
  decide +kernel

end MemoryReplicatedKv

end Cloud
