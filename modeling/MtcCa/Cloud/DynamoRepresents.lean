import MtcCa.Cloud.DynamoRequests

/-! What a table of the DynamoDB backend stores, as items of the in-memory backend: keys are cut and
rendered, the reserved attribute decodes to the value, and a condition has the same verdict on
both. -/
namespace Cloud.DynamoDbReplicatedKv

open Text Dynamo

variable {t : Table} {items : Store} {key key' : Key} {k k' : PrimaryKey} {attrs : Attributes}
  {v value : Value} {conditions : List Condition}

theorem splitOnce_eq {s a b : String} {c : Char} (h : splitOnce s c = some (a, b)) :
    a ++ c.toString ++ b = s := by
  unfold splitOnce at h
  split at h
  · cases h
  · next x rest hdrop =>
    cases h
    have hx := List.head?_dropWhile_not (fun x => decide (x ≠ c)) s.toList
    rw [hdrop] at hx
    obtain rfl : x = c := by simpa using hx
    rw [← String.toList_inj]
    simp only [String.toList_append, String.toList_ofList]
    have hwhole := List.takeWhile_append_dropWhile (p := fun y => decide (y ≠ x)) (l := s.toList)
    rw [hdrop] at hwhole
    simpa using hwhole

/-- A key is the rendering of its two parts, which are not empty. -/
theorem splitKey_eq (h : splitKey key = .ok k) : renderKey k = key ∧ k.valid = true := by
  unfold splitKey at h
  split at h
  · next pk sk hsplit =>
    split at h
    · next hne =>
      cases h
      refine ⟨?_, by simp [PrimaryKey.valid, hne.1, hne.2]⟩
      obtain ⟨s⟩ := key
      have hwhole := splitOnce_eq hsplit
      exact congrArg Key.mk hwhole
    · cases h
  · cases h

/-- Distinct keys have distinct parts. -/
theorem splitKey_inj (h : splitKey key = .ok k) (h' : splitKey key' = .ok k) : key = key' :=
  (splitKey_eq h).1.symm.trans (splitKey_eq h').1

/-- An item of the table that holds a value. -/
structure Stored (k : PrimaryKey) (attrs : Attributes) (v : Value) : Prop where
  pk : attrs.get? pkAttr = some (.s k.pk)
  sk : attrs.get? skAttr = some (.s k.sk)
  value : ∃ raw, attrs.get? valueAttr = some raw ∧ decodeValue raw = .ok v

/-- The table stores the items of the memory and no others. -/
structure Represents (t : Table) (items : Store) : Prop where
  stored : ∀ {key k}, splitKey key = .ok k → Option.Rel (Stored k) (t.get? k) (items.get? key)
  splits : ∀ key, (items.get? key).isSome → ∃ k, splitKey key = .ok k
  renders : ∀ k, (t.get? k).isSome → ∃ key, splitKey key = .ok k

theorem represents_empty : Represents .empty .empty where
  stored _ := by
    rw [FiniteMap.get?_empty, FiniteMap.get?_empty]
    exact .none
  splits key h := by simp at h
  renders k h := by simp at h

theorem Represents.insert (h : Represents t items) (hk : splitKey key = .ok k)
    (hs : Stored k attrs v) : Represents (t.insert k attrs) (items.insert key v) where
  stored := by
    intro key' k' hk'
    by_cases heq : key' = key
    · subst heq
      obtain rfl := Except.ok.inj (hk.symm.trans hk')
      rw [FiniteMap.get?_insert_self, FiniteMap.get?_insert_self]
      exact .some hs
    · have hne : k' ≠ k := by
        rintro rfl
        exact heq (splitKey_inj hk' hk)
      rw [FiniteMap.get?_insert_ne hne, FiniteMap.get?_insert_ne heq]
      exact h.stored hk'
  splits := by
    intro key' h'
    by_cases heq : key' = key
    · exact ⟨k, heq ▸ hk⟩
    · rw [FiniteMap.get?_insert_ne heq] at h'
      exact h.splits key' h'
  renders := by
    intro k' h'
    by_cases heq : k' = k
    · exact ⟨key, heq ▸ hk⟩
    · rw [FiniteMap.get?_insert_ne heq] at h'
      exact h.renders k' h'

theorem Represents.erase (h : Represents t items) (hk : splitKey key = .ok k) :
    Represents (t.erase k) (items.erase key) where
  stored := by
    intro key' k' hk'
    by_cases heq : key' = key
    · subst heq
      obtain rfl := Except.ok.inj (hk.symm.trans hk')
      rw [FiniteMap.get?_erase_self, FiniteMap.get?_erase_self]
      exact .none
    · have hne : k' ≠ k := by
        rintro rfl
        exact heq (splitKey_inj hk' hk)
      rw [FiniteMap.get?_erase_ne hne, FiniteMap.get?_erase_ne heq]
      exact h.stored hk'
  splits := by
    intro key' h'
    by_cases heq : key' = key
    · exact ⟨k, heq ▸ hk⟩
    · rw [FiniteMap.get?_erase_ne heq] at h'
      exact h.splits key' h'
  renders := by
    intro k' h'
    by_cases heq : k' = k
    · exact ⟨key, heq ▸ hk⟩
    · rw [FiniteMap.get?_erase_ne heq] at h'
      exact h.renders k' h'

/-- A stored value decodes. -/
abbrev Decodes (a : AttributeValue) (w : Value) : Prop := decodeValue a = .ok w

/-- The path of an attribute leads to what the condition compares. -/
theorem lookup_attrPath (h : Stored k attrs v) (attr : String) :
    Option.Rel Decodes (lookup attrs (attrPath attr)) (attributeValue (some v) attr) := by
  obtain ⟨raw, hraw, hdecode⟩ := h.value
  unfold attrPath attributeValue
  by_cases hempty : attr.isEmpty = true
  · simp only [hempty, if_true, lookup, hraw]
    exact .some hdecode
  · simp only [hempty, Bool.false_eq_true, if_false, lookup, hraw]
    cases raw with
    | m entries =>
      obtain ⟨out, rfl, hrel⟩ := decodeValue_m_eq_ok_iff.mp hdecode
      exact hrel attr
    | n s =>
      rw [decodeValue] at hdecode
      split at hdecode <;> cases hdecode
      exact .none
    | bool | s | b =>
      cases hdecode
      exact .none
    | unsupported => cases hdecode

/-- A condition asks of a stored item what it asks of its value. -/
theorem conditionSem_iff {o : Option Attributes} {w : Option Value}
    (h : Option.Rel (Stored k) o w) (c : Condition) :
    conditionSem c (o.getD .empty) = true ↔ checkCondition w c = .ok () := by
  cases c with
  | notExists =>
    cases h with
    | none => simp [conditionSem, checkCondition, lookup]
    | some hs => simp [conditionSem, checkCondition, lookup, hs.pk]
  | «exists» =>
    cases h with
    | none => simp [conditionSem, checkCondition, lookup]
    | some hs => simp [conditionSem, checkCondition, lookup, hs.pk]
  | attributeEquals attr expected =>
    rw [checkCondition_attributeEquals_iff]
    cases h with
    | none =>
      have hnone : lookup (FiniteMap.empty : Attributes) (attrPath attr) = none := by
        unfold attrPath
        split <;> simp [lookup]
      simp [conditionSem, attributeValue, hnone, sameIfPresent]
    | some hs =>
      have hrel := lookup_attrPath hs attr
      simp only [conditionSem, Option.getD_some]
      generalize lookup _ (attrPath attr) = found at hrel
      generalize attributeValue _ attr = held at hrel
      cases hrel with
      | none => simp [sameIfPresent]
      | some hdecode =>
        rw [sameIfPresent, same_encodeValue_iff expected hdecode, Option.some.injEq]

theorem all_conditionSem_iff {o : Option Attributes} {w : Option Value}
    (h : Option.Rel (Stored k) o w) :
    (conditions.all fun c => conditionSem c (o.getD .empty)) = true ↔
      checkConditions w conditions = .ok () := by
  rw [List.all_eq_true, checkConditions_eq_ok_iff]
  exact forall₂_congr fun c _ => conditionSem_iff h c

end Cloud.DynamoDbReplicatedKv
