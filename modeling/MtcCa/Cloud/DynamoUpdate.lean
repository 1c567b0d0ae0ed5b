import MtcCa.Cloud.DynamoRepresents

/-! An update on both backends. One folds its actions over the entries in order, the other computes
every assigned value on the item before the update and removes last: on different attributes they
leave the same entries. -/
namespace Cloud

def UpdateAction.attr : UpdateAction → String
  | .set attr _ => attr
  | .increment attr _ => attr
  | .remove attr => attr

/-- The attributes of an update are not empty and differ. -/
structure UpdateExpression.Plain (expr : UpdateExpression) : Prop where
  attr_ne : ∀ a ∈ expr.actions, a.attr ≠ ""
  nodup : (expr.actions.map UpdateAction.attr).Nodup

namespace DynamoDbReplicatedKv

open Text Dynamo

variable {entries out : FiniteMap String Value} {raw item : Attributes}
  {actions : List UpdateAction} {action : UpdateAction} {held r : Option Value}
  {rawHeld : Option AttributeValue} {amount : UInt64}

/-- An increment does not carry its attribute beyond a `u64`. -/
def Fits (held : Option Value) : UpdateAction → Prop
  | .increment _ amount => ∀ current, held = some (.u64 current) →
      current.toNat + amount.toNat < 2 ^ 64
  | _ => True

/-- What an action leaves at its attribute, or nothing when it fails. -/
def actionResult (held : Option Value) : UpdateAction → Option (Option Value)
  | .set _ value => some (some value)
  | .increment _ amount =>
    match held with
    | some (.u64 current) =>
      if current.toNat + amount.toNat < 2 ^ 64 then some (some (.u64 (current + amount))) else none
    | _ => none
  | .remove _ => some none

theorem applyUpdateAction_cases (entries : FiniteMap String Value) (action : UpdateAction) :
    (∃ r, actionResult (entries.get? action.attr) action = some r ∧
      applyUpdateAction entries action = .ok (entries.assign action.attr r)) ∨
    (actionResult (entries.get? action.attr) action = none ∧
      ∃ reason, applyUpdateAction entries action = .error (.conditionFailed reason)) := by
  cases action with
  | set attr value => exact Or.inl ⟨_, rfl, rfl⟩
  | increment attr amount =>
    simp only [applyUpdateAction, UpdateAction.attr, actionResult]
    cases entries.get? attr with
    | none => exact Or.inr ⟨rfl, _, rfl⟩
    | some v =>
      cases v with
      | u64 current =>
        by_cases hfits : current.toNat + amount.toNat < 2 ^ 64
        · simp only [if_pos hfits]
          exact Or.inl ⟨_, rfl, rfl⟩
        · simp only [if_neg hfits]
          exact Or.inr ⟨trivial, _, rfl⟩
      | bool | string | bytes | map => exact Or.inr ⟨rfl, _, rfl⟩
  | remove attr => exact Or.inl ⟨_, rfl, rfl⟩

/-- Actions on different attributes leave at each what it gives on the entries before the update,
or one of them fails. -/
theorem foldlM_applyUpdateAction_cases (entries : FiniteMap String Value)
    (hnodup : (actions.map UpdateAction.attr).Nodup) :
    (∃ out, actions.foldlM applyUpdateAction entries = .ok out ∧
      (∀ a ∈ actions, actionResult (entries.get? a.attr) a = some (out.get? a.attr)) ∧
      ∀ k, k ∉ actions.map UpdateAction.attr → out.get? k = entries.get? k) ∨
    ((∃ a ∈ actions, actionResult (entries.get? a.attr) a = none) ∧
      ∃ reason, actions.foldlM applyUpdateAction entries = .error (.conditionFailed reason)) := by
  induction actions generalizing entries with
  | nil => exact Or.inl ⟨entries, rfl, by simp, by simp⟩
  | cons a actions ih =>
    obtain ⟨ha, hnodup⟩ := List.nodup_cons.mp hnodup
    rcases applyUpdateAction_cases entries a with ⟨r, hr, happly⟩ | ⟨hnone, reason, happly⟩
    · have hkeep : ∀ b ∈ actions, (entries.assign a.attr r).get? b.attr = entries.get? b.attr := by
        intro b hb
        have hne : b.attr ≠ a.attr := fun heq => ha (heq ▸ List.mem_map_of_mem hb)
        rw [FiniteMap.get?_assign, if_neg hne]
      rw [List.foldlM_cons, happly, Outcome.ok_bind]
      rcases ih (entries.assign a.attr r) hnodup with
        ⟨out, hout, heach, hrest⟩ | ⟨⟨b, hb, hnone⟩, hfail⟩
      · refine Or.inl ⟨out, hout, ?_, ?_⟩
        · rw [List.forall_mem_cons]
          constructor
          · rw [hrest _ ha, FiniteMap.get?_assign, if_pos rfl, hr]
          · intro b hb
            rw [← heach b hb, hkeep b hb]
        · intro k hk
          rw [List.map_cons, List.mem_cons, not_or] at hk
          rw [hrest k hk.2, FiniteMap.get?_assign, if_neg hk.1]
      · rw [hkeep b hb] at hnone
        exact Or.inr ⟨⟨b, List.mem_cons_of_mem _ hb, hnone⟩, hfail⟩
    · refine Or.inr ⟨⟨a, List.mem_cons_self .., hnone⟩, reason, ?_⟩
      rw [List.foldlM_cons, happly, Outcome.error_bind]

/-- What an action leaves at its attribute of a stored map, or nothing when it cannot. -/
def rawResult (held : Option AttributeValue) : UpdateAction → Option (Option AttributeValue)
  | .set _ value => some (some (encodeValue value))
  | .increment _ amount =>
    match held with
    | some (.n x) => (addNumbers x (Nat.repr amount.toNat)).map fun s => some (.n s)
    | _ => none
  | .remove _ => some none

theorem decodes_addNumbers {s : String} {current : UInt64} (hdecode : Decodes (.n s) (.u64 current))
    (hfits : current.toNat + amount.toNat < 2 ^ 64) :
    ∃ s', addNumbers s (Nat.repr amount.toNat) = some s' ∧
      Decodes (.n s') (.u64 (current + amount)) := by
  have hparse : parseU64 s = some current := by
    rw [Decodes, decodeValue] at hdecode
    split at hdecode
    · next n hn =>
      cases hdecode
      exact hn
    · cases hdecode
  have hsum : (current + amount).toNat = current.toNat + amount.toNat := by
    rw [UInt64.toNat_add, Nat.mod_eq_of_lt hfits]
  refine ⟨_, by rw [addNumbers, parseU64_eq_some hparse, numeral_repr], ?_⟩
  rw [Decodes, decodeValue, ← hsum, parseU64_repr]

/-- A stored attribute is a number exactly when it decodes to a `u64`. -/
theorem hasType_number_iff (h : Option.Rel Decodes rawHeld held) :
    hasType rawHeld (some (.s "N")) = true ↔
      ∃ s current, rawHeld = some (.n s) ∧ held = some (.u64 current) := by
  cases h with
  | none => simp [hasType]
  | @some a w hdecode =>
    cases a with
    | n s =>
      have hw : ∃ current, w = .u64 current := by
        rw [Decodes, decodeValue] at hdecode
        split at hdecode <;> cases hdecode
        exact ⟨_, rfl⟩
      obtain ⟨current, rfl⟩ := hw
      simp [hasType, AttributeValue.typeName]
    | bool | s | b | m | unsupported => simp [hasType, AttributeValue.typeName]

/-- On a stored attribute an action leaves what it leaves on the value it decodes to. -/
theorem rawResult_of_actionResult (h : Option.Rel Decodes rawHeld held)
    (hr : actionResult held action = some r) :
    ∃ r', rawResult rawHeld action = some r' ∧ Option.Rel Decodes r' r := by
  cases action with
  | set attr value =>
    cases hr
    exact ⟨_, rfl, .some (decodeValue_encodeValue value)⟩
  | increment attr amount =>
    simp only [actionResult] at hr
    split at hr
    · next current =>
      split at hr
      · next hfits =>
        cases hr
        cases h with
        | @some a _ hdecode =>
          cases a with
          | n s =>
            obtain ⟨s', hsum, hdecode'⟩ := decodes_addNumbers hdecode hfits
            exact ⟨_, by rw [rawResult, hsum, Option.map_some], .some hdecode'⟩
          | m entries =>
            obtain ⟨out, hout, -⟩ := decodeValue_m_eq_ok_iff.mp hdecode
            cases hout
          | bool | s | b | unsupported => cases hdecode
      · cases hr
    · cases hr
  | remove attr =>
    cases hr
    exact ⟨_, rfl, .none⟩

/-- The guard of an action holds exactly when the action succeeds. -/
theorem guardOf_iff (h : Option.Rel Decodes (lookup item (attrPath action.attr)) held)
    (hfits : Fits held action) :
    (∀ g, guardOf action = some g → g item = true) ↔ (actionResult held action).isSome := by
  cases action with
  | set attr value => simp [guardOf, actionResult]
  | increment attr amount =>
    have h : Option.Rel Decodes (lookup item (attrPath attr)) held := h
    simp only [guardOf, Option.some.injEq, forall_eq', hasType_number_iff h]
    constructor
    · rintro ⟨s, current, -, rfl⟩
      simp only [actionResult, if_pos (hfits current rfl), Option.isSome_some]
    · intro hsome
      simp only [actionResult] at hsome
      split at hsome
      · next current _ =>
        generalize lookup item (attrPath attr) = rawHeld at h
        cases h with
        | @some a _ hdecode =>
          cases a with
          | n s => exact ⟨s, current, rfl, rfl⟩
          | m entries =>
            obtain ⟨out, hout, -⟩ := decodeValue_m_eq_ok_iff.mp hdecode
            cases hout
          | bool | s | b | unsupported => cases hdecode
      · cases hsome
  | remove attr => simp [guardOf, actionResult]

/-- All guards of an update hold exactly when all its actions succeed. -/
theorem all_guards_iff (h : ∀ a ∈ actions,
      Option.Rel Decodes (lookup item (attrPath a.attr)) (entries.get? a.attr))
    (hfits : ∀ a ∈ actions, Fits (entries.get? a.attr) a) :
    ((actions.filterMap guardOf).all fun g => g item) = true ↔
      ∀ a ∈ actions, (actionResult (entries.get? a.attr) a).isSome := by
  rw [List.all_eq_true]
  constructor
  · intro hall a ha
    refine (guardOf_iff (h a ha) (hfits a ha)).mp fun g hg => ?_
    exact hall g (List.mem_filterMap.mpr ⟨a, ha, hg⟩)
  · intro hall g hg
    obtain ⟨a, ha, hguard⟩ := List.mem_filterMap.mp hg
    exact (guardOf_iff (h a ha) (hfits a ha)).mpr (hall a ha) g hguard

/-- What the actions set, on the entries before the update. -/
def setsOf (raw : Attributes) (actions : List UpdateAction) : List (String × AttributeValue) :=
  actions.filterMap fun a => (rawResult (raw.get? a.attr) a).join.map fun v => (a.attr, v)

/-- What the actions remove. -/
def removesOf : List UpdateAction → List String
  | [] => []
  | .remove attr :: actions => attr :: removesOf actions
  | _ :: actions => removesOf actions

theorem mem_removesOf {attr : String} : attr ∈ removesOf actions ↔ .remove attr ∈ actions := by
  induction actions with
  | nil => simp [removesOf]
  | cons a actions ih => cases a <;> simp [removesOf, ih]

theorem filterMap_removeOf (h : ∀ a ∈ actions, a.attr ≠ "") :
    actions.filterMap removeOf = (removesOf actions).map fun attr => [valueAttr, attr] := by
  induction actions with
  | nil => rfl
  | cons a actions ih =>
    obtain ⟨ha, hrest⟩ := List.forall_mem_cons.mp h
    cases a with
    | set | increment => exact ih hrest
    | remove attr =>
      rw [List.filterMap_cons, removesOf, List.map_cons, ← ih hrest]
      simp only [removeOf, attrPath]
      rw [if_neg (by simpa [UpdateAction.attr] using ha)]

/-- Sets and removals together concern each attribute of the update. -/
theorem setsOf_removesOf_perm (h : ∀ a ∈ actions, (rawResult (raw.get? a.attr) a).isSome) :
    ((setsOf raw actions).map Prod.fst ++ removesOf actions).Perm
      (actions.map UpdateAction.attr) := by
  induction actions with
  | nil => exact .nil
  | cons a actions ih =>
    obtain ⟨ha, hrest⟩ := List.forall_mem_cons.mp h
    cases a with
    | set attr value => exact (ih hrest).cons attr
    | increment attr amount =>
      obtain ⟨r, hr⟩ := Option.isSome_iff_exists.mp ha
      have hset : ∃ v, r = some v := by
        simp only [rawResult] at hr
        split at hr
        · obtain ⟨s, -, rfl⟩ := Option.map_eq_some_iff.mp hr
          exact ⟨_, rfl⟩
        · cases hr
      obtain ⟨v, rfl⟩ := hset
      rw [setsOf, List.filterMap_cons, hr]
      exact (ih hrest).cons attr
    | remove attr => exact List.perm_middle.trans ((ih hrest).cons attr)

theorem decodes_map {a : AttributeValue} (h : Decodes a (.map entries)) :
    ∃ raw, a = .m raw ∧ ∀ k, Option.Rel Decodes (raw.get? k) (entries.get? k) := by
  cases a with
  | m raw =>
    obtain ⟨out, hout, hrel⟩ := decodeValue_m_eq_ok_iff.mp h
    cases hout
    exact ⟨raw, rfl, hrel⟩
  | n s =>
    rw [Decodes, decodeValue] at h
    split at h <;> cases h
  | bool | s | b | unsupported => cases h

theorem lookup_entry (hitem : item.get? valueAttr = some (.m raw)) {attr : String}
    (hattr : attr ≠ "") : lookup item (attrPath attr) = raw.get? attr := by
  rw [attrPath, if_neg (by simpa using hattr)]
  simp only [lookup, hitem]

/-- Assignments inside the value attribute make its new entries and leave the rest. -/
theorem foldlM_setPath (hitem : item.get? valueAttr = some (.m raw))
    (sets : List (String × AttributeValue)) :
    ∃ item', (sets.map fun p => ([valueAttr, p.1], p.2)).foldlM
        (fun item s => setPath s.2 item s.1) item = some item' ∧
      item'.get? valueAttr = some (.m (sets.foldl (fun m p => m.insert p.1 p.2) raw)) ∧
      ∀ j, j ≠ valueAttr → item'.get? j = item.get? j := by
  induction sets generalizing item raw with
  | nil => exact ⟨item, rfl, hitem, fun j hj => rfl⟩
  | cons p sets ih =>
    have hset : setPath p.2 item [valueAttr, p.1] =
        some (item.insert valueAttr (.m (raw.insert p.1 p.2))) := by
      simp only [setPath, hitem, Option.map_some]
    have hnext : (item.insert valueAttr (.m (raw.insert p.1 p.2))).get? valueAttr =
        some (.m (raw.insert p.1 p.2)) := FiniteMap.get?_insert_self
    obtain ⟨item', hfold, hvalue, hkeep⟩ := ih hnext
    refine ⟨item', ?_, hvalue, fun j hj => ?_⟩
    · rw [List.map_cons, List.foldlM_cons]
      simp only [hset]
      exact hfold
    · rw [hkeep j hj, FiniteMap.get?_insert_ne hj]

/-- Removals inside the value attribute drop its entries and leave the rest. -/
theorem foldlM_removePath (hitem : item.get? valueAttr = some (.m raw)) (removes : List String) :
    ∃ item', (removes.map fun attr => [valueAttr, attr]).foldlM removePath item = some item' ∧
      item'.get? valueAttr = some (.m (removes.foldl FiniteMap.erase raw)) ∧
      ∀ j, j ≠ valueAttr → item'.get? j = item.get? j := by
  induction removes generalizing item raw with
  | nil => exact ⟨item, rfl, hitem, fun j hj => rfl⟩
  | cons attr removes ih =>
    have hremove : removePath item [valueAttr, attr] =
        some (item.insert valueAttr (.m (raw.erase attr))) := by
      simp only [removePath, hitem, Option.map_some]
    have hnext : (item.insert valueAttr (.m (raw.erase attr))).get? valueAttr =
        some (.m (raw.erase attr)) := FiniteMap.get?_insert_self
    obtain ⟨item', hfold, hvalue, hkeep⟩ := ih hnext
    refine ⟨item', ?_, hvalue, fun j hj => ?_⟩
    · rw [List.map_cons, List.foldlM_cons, hremove]
      exact hfold
    · rw [hkeep j hj, FiniteMap.get?_insert_ne hj]

/-- Every assignment of the actions has its value on the item before the update. -/
theorem forall₂_setsOf (hitem : item.get? valueAttr = some (.m raw))
    (hattr : ∀ a ∈ actions, a.attr ≠ "")
    (h : ∀ a ∈ actions, (rawResult (raw.get? a.attr) a).isSome) :
    List.Forall₂ (fun a x => a.1 = x.1 ∧ a.2 item = some x.2) (actions.filterMap assignOf)
      ((setsOf raw actions).map fun p => ([valueAttr, p.1], p.2)) := by
  induction actions with
  | nil => exact .nil
  | cons a actions ih =>
    obtain ⟨ha, hrest⟩ := List.forall_mem_cons.mp h
    obtain ⟨hne, hattrs⟩ := List.forall_mem_cons.mp hattr
    have hpath : attrPath a.attr = [valueAttr, a.attr] := by
      rw [attrPath, if_neg (by simpa using hne)]
    cases a with
    | set attr value => exact .cons ⟨hpath, rfl⟩ (ih hattrs hrest)
    | increment attr amount =>
      obtain ⟨r, hr⟩ := Option.isSome_iff_exists.mp ha
      have hplus : ∃ v, r = some v ∧
          plusNumber (attrPath attr) (Nat.repr amount.toNat) item = some v := by
        have hadded : ∃ x s, raw.get? attr = some (.n x) ∧
            addNumbers x (Nat.repr amount.toNat) = some s ∧ r = some (.n s) := by
          simp only [rawResult, UpdateAction.attr] at hr
          split at hr
          · next x hx =>
            obtain ⟨s, hs, rfl⟩ := Option.map_eq_some_iff.mp hr
            exact ⟨x, s, hx, hs, rfl⟩
          · cases hr
        obtain ⟨x, s, hx, hs, rfl⟩ := hadded
        have hentry : lookup item (attrPath attr) = raw.get? attr := lookup_entry hitem hne
        rw [plusNumber, hentry, hx]
        exact ⟨_, rfl, congrArg (Option.map AttributeValue.n) hs⟩
      obtain ⟨v, rfl, hplus⟩ := hplus
      rw [setsOf, List.filterMap_cons (f := fun a =>
        (rawResult (raw.get? a.attr) a).join.map fun v => (a.attr, v)), hr]
      exact .cons ⟨hpath, hplus⟩ (ih hattrs hrest)
    | remove attr => exact ih hattrs hrest

theorem pairwise_apart {l : List String} (h : l.Nodup) :
    (l.map fun attr => [valueAttr, attr]).Pairwise Apart := by
  rw [List.pairwise_map]
  refine h.imp fun {a b} hne => ?_
  simp [Apart, List.isPrefixOf, hne, hne.symm]

/-- The entries that sets and removals leave: at each attribute of the update what its action
leaves, elsewhere what was there. -/
theorem get?_setsOf_removesOf (hnodup : (actions.map UpdateAction.attr).Nodup)
    (h : ∀ a ∈ actions, (rawResult (raw.get? a.attr) a).isSome) :
    (∀ a ∈ actions, some (((removesOf actions).foldl FiniteMap.erase
        ((setsOf raw actions).foldl (fun m p => m.insert p.1 p.2) raw)).get? a.attr) =
      rawResult (raw.get? a.attr) a) ∧
    ∀ j, j ∉ actions.map UpdateAction.attr →
      ((removesOf actions).foldl FiniteMap.erase
        ((setsOf raw actions).foldl (fun m p => m.insert p.1 p.2) raw)).get? j = raw.get? j := by
  have hperm := setsOf_removesOf_perm h
  obtain ⟨hsets, -, hdisjoint⟩ := List.nodup_append'.mp (hperm.nodup_iff.mpr hnodup)
  have hremoved : ∀ a ∈ actions, rawResult (raw.get? a.attr) a = some none →
      a.attr ∈ removesOf actions := by
    intro a ha hnone
    cases a with
    | set attr value => cases hnone
    | increment attr amount =>
      simp only [rawResult] at hnone
      split at hnone
      · obtain ⟨s, -, hs⟩ := Option.map_eq_some_iff.mp hnone
        cases hs
      · cases hnone
    | remove attr => exact mem_removesOf.mpr ha
  constructor
  · intro a ha
    rw [FiniteMap.get?_foldl_erase]
    obtain ⟨r, hr⟩ := Option.isSome_iff_exists.mp (h a ha)
    rw [hr, Option.some.injEq]
    cases r with
    | none => rw [if_pos (hremoved a ha hr)]
    | some v =>
      have hmem : (a.attr, v) ∈ setsOf raw actions :=
        List.mem_filterMap.mpr ⟨a, ha, by rw [hr]; rfl⟩
      rw [if_neg (hdisjoint (List.mem_map_of_mem hmem)),
        FiniteMap.get?_foldl_insert_of_mem hsets hmem]
  · intro j hj
    have hnot := mt hperm.mem_iff.mp hj
    rw [List.mem_append, not_or] at hnot
    rw [FiniteMap.get?_foldl_erase, if_neg hnot.2, FiniteMap.get?_foldl_insert_of_notMem hnot.1]

/-- Storing other entries in an item keeps its key. -/
theorem Stored.of_value {k : PrimaryKey} {v w : Value} {item' : Attributes} {a : AttributeValue}
    (h : Stored k item v) (hvalue : item'.get? valueAttr = some a) (hdecode : Decodes a w)
    (hkeep : ∀ j, j ≠ valueAttr → item'.get? j = item.get? j) : Stored k item' w where
  pk := (hkeep pkAttr (by decide)).trans h.pk
  sk := (hkeep skAttr (by decide)).trans h.sk
  value := ⟨a, hvalue, hdecode⟩

theorem Stored.touch {k : PrimaryKey} {v : Value} (h : Stored k item v) (a : AttributeValue) :
    Stored k (item.insert noopMarkerAttr a) v where
  pk := (FiniteMap.get?_insert_ne (by decide)).trans h.pk
  sk := (FiniteMap.get?_insert_ne (by decide)).trans h.sk
  value := by
    obtain ⟨raw, hraw, hdecode⟩ := h.value
    exact ⟨raw, (FiniteMap.get?_insert_ne (by decide)).trans hraw, hdecode⟩

/-- The update expression leaves a stored item that holds what the actions make of its value. -/
theorem exists_assigned {k : PrimaryKey} {expr : UpdateExpression}
    (hstored : Stored k item (.map entries)) (hplain : expr.Plain)
    (hout : expr.actions.foldlM applyUpdateAction entries = .ok out) :
    ∃ assigned, List.Forall₂ (fun a x => a.1 = x.1 ∧ a.2 item = some x.2)
        (assignsOf expr.actions) assigned ∧
      (assigned.map Prod.fst ++ expr.actions.filterMap removeOf).Pairwise Apart ∧
      ∃ item', ((assigned.foldlM (fun item s => setPath s.2 item s.1) item).bind
          fun item => (expr.actions.filterMap removeOf).foldlM removePath item) = some item' ∧
        Stored k item' (.map out) := by
  obtain ⟨actions⟩ := expr
  obtain ⟨hattr, hnodup⟩ := hplain
  simp only at hattr hnodup hout ⊢
  by_cases hnil : actions = []
  · subst hnil
    cases hout
    rw [assignsOf, if_pos rfl]
    exact ⟨[([noopMarkerAttr], .bool true)], .cons ⟨rfl, rfl⟩ .nil, by simp, _, rfl,
      hstored.touch _⟩
  · rw [assignsOf, if_neg hnil, filterMap_removeOf hattr]
    obtain ⟨a, hitem, hdecode⟩ := hstored.value
    obtain ⟨raw, rfl, hrel⟩ := decodes_map hdecode
    obtain ⟨out', hout', heach, hrest⟩ | ⟨-, reason, hfail⟩ :=
      foldlM_applyUpdateAction_cases entries hnodup
    · obtain rfl := Except.ok.inj (hout.symm.trans hout')
      have hraw : ∀ a ∈ actions, ∃ r, rawResult (raw.get? a.attr) a = some r ∧
          Option.Rel Decodes r (out.get? a.attr) :=
        fun a ha => rawResult_of_actionResult (hrel a.attr) (heach a ha)
      have hsome : ∀ a ∈ actions, (rawResult (raw.get? a.attr) a).isSome := by
        intro a ha
        obtain ⟨r, hr, -⟩ := hraw a ha
        rw [hr, Option.isSome_some]
      obtain ⟨item₁, hfold₁, hvalue₁, hkeep₁⟩ := foldlM_setPath hitem (setsOf raw actions)
      obtain ⟨item₂, hfold₂, hvalue₂, hkeep₂⟩ := foldlM_removePath hvalue₁ (removesOf actions)
      refine ⟨_, forall₂_setsOf hitem hattr hsome, ?_, item₂, ?_, ?_⟩
      · have hapart := pairwise_apart
          ((setsOf_removesOf_perm hsome).nodup_iff.mpr hnodup)
        rw [List.map_append, List.map_map] at hapart
        rw [List.map_map]
        exact hapart
      · rw [hfold₁, Option.bind_some, hfold₂]
      · refine hstored.of_value hvalue₂ ?_ fun j hj => (hkeep₂ j hj).trans (hkeep₁ j hj)
        refine decodeValue_m_eq_ok_iff.mpr ⟨out, rfl, fun j => ?_⟩
        obtain ⟨hheld, hother⟩ := get?_setsOf_removesOf hnodup hsome
        by_cases hj : j ∈ actions.map UpdateAction.attr
        · obtain ⟨a, ha, rfl⟩ := List.mem_map.mp hj
          obtain ⟨r, hr, hdecodes⟩ := hraw a ha
          obtain rfl := Option.some.inj ((hheld a ha).trans hr)
          exact hdecodes
        · rw [hother j hj, hrest j hj]
          exact hrel j
    · rw [hout] at hfail
      cases hfail

end DynamoDbReplicatedKv

end Cloud
