import MtcCa.Cloud.DynamoDbReplicatedKv

/-! Values of the service and values of the abstraction: what is encoded decodes back, and a
stored value equals an encoded one exactly when it decodes to what was encoded. -/
namespace Cloud.DynamoDbReplicatedKv

open Text Dynamo

theorem numeral_repr (n : ℕ) : numeral (Nat.repr n) = some n := by
  have hdigit : ∀ c ∈ Nat.toDigits 10 n, c.isDigit = true := by
    intro c hc
    exact Nat.isDigit_of_mem_toDigits (by decide) (by decide) hc
  have hunsigned : unsigned (Nat.toDigits 10 n) = Nat.toDigits 10 n := by
    unfold unsigned
    split
    · next cs h =>
      rw [h] at hdigit
      exact absurd (hdigit '+' (List.mem_cons_self ..)) (by decide)
    · rfl
  rw [numeral, Nat.toList_repr]
  simp only [hunsigned]
  rw [if_pos ⟨Nat.toDigits_ne_nil, List.all_eq_true.mpr hdigit⟩, Nat.ofDigitChars_ten_toDigits]

theorem parseU64_repr (n : UInt64) : parseU64 (Nat.repr n.toNat) = some n := by
  rw [parseU64, numeral_repr]
  simp only [n.toNat_lt, if_true, UInt64.ofNat_toNat]

theorem foldlM_insert_eq_ok_iff {l : List (String × Except CloudError Value)}
    {m out : FiniteMap String Value} (hl : (l.map Prod.fst).Nodup) :
    l.foldlM (fun out p => p.2.map (out.insert p.1)) m = .ok out ↔
      (∀ p ∈ l, ∃ v, p.2 = .ok v ∧ out.get? p.1 = some v) ∧
      ∀ k, k ∉ l.map Prod.fst → out.get? k = m.get? k := by
  induction l generalizing m with
  | nil =>
    simp only [List.foldlM_nil, pure, Except.pure, Except.ok.injEq, List.not_mem_nil,
      false_imp_iff, implies_true, true_and, List.map_nil, not_false_eq_true, forall_const]
    constructor
    · rintro rfl k
      rfl
    · intro h
      exact FiniteMap.ext (fun k => (h k).symm)
  | cons p l ih =>
    obtain ⟨k, r⟩ := p
    obtain ⟨hp, hl'⟩ := List.nodup_cons.mp hl
    rw [List.foldlM_cons, List.forall_mem_cons]
    cases r with
    | error e => simp [Except.map]
    | ok v =>
      rw [Except.map, Outcome.ok_bind, ih hl']
      simp only [List.map_cons, List.mem_cons, not_or, Except.ok.injEq, exists_eq_left']
      constructor
      · rintro ⟨hmem, hrest⟩
        refine ⟨⟨?_, hmem⟩, ?_⟩
        · rw [hrest k hp, FiniteMap.get?_insert_self]
        · rintro j ⟨hjk, hj⟩
          rw [hrest j hj, FiniteMap.get?_insert_ne hjk]
      · rintro ⟨⟨hk, hmem⟩, hrest⟩
        refine ⟨hmem, ?_⟩
        intro j hj
        by_cases hjk : j = k
        · rw [hjk, hk, FiniteMap.get?_insert_self]
        · rw [hrest j ⟨hjk, hj⟩, FiniteMap.get?_insert_ne hjk]

/-- Collecting succeeds exactly when every entry has decoded. -/
theorem collectEntries_eq_ok_iff {entries : FiniteMap String (Except CloudError Value)}
    {out : FiniteMap String Value} :
    collectEntries entries = .ok out ↔ ∀ k, entries.get? k = (out.get? k).map .ok := by
  have hnodup : (entries.toList.map Prod.fst).Nodup := by
    rw [List.Nodup, List.pairwise_map]
    exact FiniteMap.toList_sorted.imp (fun h => ne_of_lt h)
  have hnotMem : ∀ k, k ∉ entries.toList.map Prod.fst ↔ entries.get? k = none := by
    intro k
    rw [Option.eq_none_iff_forall_ne_some, List.mem_map, not_exists]
    constructor
    · intro h r hr
      exact h (k, r) ⟨FiniteMap.mem_toList.mpr hr, rfl⟩
    · rintro h ⟨j, r⟩ ⟨hmem, rfl⟩
      exact h r (FiniteMap.mem_toList.mp hmem)
  rw [collectEntries, foldlM_insert_eq_ok_iff hnodup]
  constructor
  · rintro ⟨hmem, hrest⟩ k
    cases hk : entries.get? k with
    | none => rw [hrest k ((hnotMem k).mpr hk), FiniteMap.get?_empty, Option.map_none]
    | some r =>
      obtain ⟨v, rfl, hv⟩ := hmem (k, r) (FiniteMap.mem_toList.mpr hk)
      rw [hv, Option.map_some]
  · intro h
    refine ⟨?_, ?_⟩
    · rintro ⟨k, r⟩ hmem
      have hk := h k
      rw [FiniteMap.mem_toList.mp hmem] at hk
      obtain ⟨v, hv, hr⟩ := Option.map_eq_some_iff.mp hk.symm
      exact ⟨v, hr.symm, hv⟩
    · intro k hk
      have hnone := h k
      rw [(hnotMem k).mp hk] at hnone
      rw [Option.map_eq_none_iff.mp hnone.symm, FiniteMap.get?_empty]

theorem decodeValue_m_eq_ok_iff {a : Attributes} {v : Value} :
    decodeValue (.m a) = .ok v ↔ ∃ out, v = .map out ∧
      ∀ k, Option.Rel (fun x w => decodeValue x = .ok w) (a.get? k) (out.get? k) := by
  obtain ⟨ks, f⟩ := a
  have hrel : ∀ (out : FiniteMap String Value) k,
      (⟨ks, fun j => decodeValue (f j)⟩ : FiniteMap String _).get? k = (out.get? k).map .ok ↔
        Option.Rel (fun x w => decodeValue x = .ok w)
          ((⟨ks, f⟩ : Attributes).get? k) (out.get? k) := by
    intro out k
    rw [FiniteMap.get?_mk_comp]
    cases (⟨ks, f⟩ : Attributes).get? k <;> cases out.get? k <;> simp
  rw [decodeValue]
  constructor
  · intro h
    cases hout : collectEntries ⟨ks, fun j => decodeValue (f j)⟩ with
    | error e =>
      rw [hout] at h
      cases h
    | ok out =>
      rw [hout] at h
      cases h
      exact ⟨out, rfl, fun k => (hrel out k).mp (collectEntries_eq_ok_iff.mp hout k)⟩
  · rintro ⟨out, rfl, h⟩
    rw [collectEntries_eq_ok_iff.mpr (fun k => (hrel out k).mpr (h k))]
    rfl

theorem same_m_iff {a b : Attributes} :
    (AttributeValue.m a).same (.m b) = true ↔
      ∀ k, Option.Rel (fun x y => x.same y = true) (a.get? k) (b.get? k) := by
  obtain ⟨ks, f⟩ := a
  obtain ⟨ks', g⟩ := b
  rw [AttributeValue.same]
  split
  · next h =>
    subst h
    rw [decide_eq_true_eq]
    constructor
    · intro h k
      unfold FiniteMap.get?
      split
      · next hk => exact .some (h ⟨k, hk⟩)
      · exact .none
    · rintro h ⟨k, hk⟩
      have hrel := h k
      rw [FiniteMap.get?, FiniteMap.get?, dif_pos hk, dif_pos hk] at hrel
      cases hrel with
      | some hsame => exact hsame
  · next hne =>
    refine iff_of_false (by simp) ?_
    intro h
    apply hne
    ext k
    have hrel := h k
    have hk := FiniteMap.mem_keys_iff (m := ⟨ks, f⟩) (k := k)
    have hk' := FiniteMap.mem_keys_iff (m := ⟨ks', g⟩) (k := k)
    rw [hk, hk']
    generalize (⟨ks, f⟩ : Attributes).get? k = x at hrel
    generalize (⟨ks', g⟩ : Attributes).get? k = y at hrel
    cases hrel <;> simp


theorem encodeValue_map (entries : FiniteMap String Value) :
    ∃ a : Attributes, encodeValue (.map entries) = .m a ∧
      ∀ k, a.get? k = (entries.get? k).map encodeValue := by
  obtain ⟨ks, f⟩ := entries
  exact ⟨_, rfl, fun k => FiniteMap.get?_mk_comp encodeValue⟩

/-- What is encoded decodes back. -/
theorem decodeValue_encodeValue : ∀ v : Value, decodeValue (encodeValue v) = .ok v
  | .bool b => rfl
  | .u64 n => by rw [encodeValue, decodeValue, parseU64_repr]
  | .string s => rfl
  | .bytes b => rfl
  | .map ⟨ks, f⟩ => by
    have ih : ∀ k, decodeValue (encodeValue (f k)) = .ok (f k) :=
      fun k => decodeValue_encodeValue (f k)
    rw [encodeValue, decodeValue_m_eq_ok_iff]
    refine ⟨_, rfl, fun k => ?_⟩
    unfold FiniteMap.get?
    split
    · next hk => exact .some (ih ⟨k, hk⟩)
    · exact .none

theorem parseU64_eq_some {s : String} {n : UInt64} (h : parseU64 s = some n) :
    numeral s = some n.toNat := by
  unfold parseU64 at h
  split at h
  · next x hx =>
    split at h
    · next hlt =>
      cases h
      rw [hx, UInt64.toNat_ofNat_of_lt' hlt]
    · cases h
  · cases h

/-- A stored value equals an encoded one exactly when it decodes to what was encoded. -/
theorem same_encodeValue_iff : ∀ {a : AttributeValue} {w : Value} (v : Value),
    decodeValue a = .ok w → ((a.same (encodeValue v)) = true ↔ w = v)
  | .bool x, w, v, h => by
    cases h
    cases v <;> simp [encodeValue, AttributeValue.same]
  | .n s, w, v, h => by
    rw [decodeValue] at h
    cases hn : parseU64 s with
    | none =>
      rw [hn] at h
      cases h
    | some n =>
      rw [hn] at h
      cases h
      cases v with
      | u64 m =>
        simp only [encodeValue, AttributeValue.same, sameNumber, parseU64_eq_some hn, numeral_repr,
          decide_eq_true_eq, Value.u64.injEq, UInt64.toNat_inj]
      | bool b => simp [encodeValue, AttributeValue.same]
      | string s => simp [encodeValue, AttributeValue.same]
      | bytes b => simp [encodeValue, AttributeValue.same]
      | map entries => simp [encodeValue, AttributeValue.same]
  | .s x, w, v, h => by
    cases h
    cases v <;> simp [encodeValue, AttributeValue.same]
  | .b x, w, v, h => by
    cases h
    cases v <;> simp [encodeValue, AttributeValue.same]
  | .m ⟨ks, f⟩, w, v, h => by
    have ih : ∀ k w v, decodeValue (f k) = .ok w → ((f k).same (encodeValue v) = true ↔ w = v) :=
      fun k w v => same_encodeValue_iff v
    obtain ⟨out, rfl, hout⟩ := decodeValue_m_eq_ok_iff.mp h
    cases v with
    | map entries =>
      obtain ⟨b, hb, hget⟩ := encodeValue_map entries
      rw [hb, same_m_iff, Value.map.injEq, FiniteMap.ext_iff]
      refine forall_congr' (fun k => ?_)
      have hk := hout k
      rw [hget]
      by_cases hmem : k ∈ ks
      · rw [FiniteMap.get?, dif_pos hmem] at hk ⊢
        generalize out.get? k = x at hk
        cases hk with
        | some hdecode =>
          cases entries.get? k with
          | none => simp
          | some v => simpa using ih ⟨k, hmem⟩ _ v hdecode
      · rw [FiniteMap.get?, dif_neg hmem] at hk ⊢
        generalize out.get? k = x at hk
        cases hk
        cases entries.get? k <;> simp
    | bool b => simp [encodeValue, AttributeValue.same]
    | u64 n => simp [encodeValue, AttributeValue.same]
    | string s => simp [encodeValue, AttributeValue.same]
    | bytes b => simp [encodeValue, AttributeValue.same]
  | .unsupported x, w, v, h => by cases h

end Cloud.DynamoDbReplicatedKv
