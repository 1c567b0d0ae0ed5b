import MtcCa.Cloud.DynamoExpressions

/-! What the expression builder promises: its placeholders are new each time, so whatever it
makes later, a text it made earlier keeps its meaning. -/
namespace Cloud.DynamoDbReplicatedKv

open Text Dynamo ExprBuilder

variable {α β : Type} {σ : Substitution} {b : ExprBuilder}

/-- The substitution has every placeholder of the builder. -/
structure ExprBuilder.Within (b : ExprBuilder) (σ : Substitution) : Prop where
  names : ∀ k name, b.names.get? k = some name → σ.name k = some name
  values : ∀ k v, b.values.get? k = some v → σ.value k = some v

/-- Every placeholder so far has a number below the next one. -/
structure ExprBuilder.Fresh (b : ExprBuilder) : Prop where
  names : ∀ k name, b.names.get? k = some name → ∃ i < b.next, k = "#n" ++ Nat.repr i
  values : ∀ k v, b.values.get? k = some v → ∃ i < b.next, k = ":v" ++ Nat.repr i
  valueAlias : ∀ k, b.valueAlias = some k → b.names.get? k = some valueAttr

theorem fresh_default : ExprBuilder.default.Fresh := by
  constructor <;> simp [ExprBuilder.default]

/-- Building keeps placeholders apart, and what it returns means `Q` under every substitution
that has the placeholders. -/
def Builds (m : StateM ExprBuilder α) (Q : Substitution → α → Prop) : Prop :=
  ∀ b : ExprBuilder, b.Fresh →
    (m b).2.Fresh ∧ ∀ σ, (m b).2.Within σ → b.Within σ ∧ Q σ (m b).1

theorem builds_pure {a : α} {Q : Substitution → α → Prop} (h : ∀ σ, Q σ a) :
    Builds (pure a) Q :=
  fun _ hb => ⟨hb, fun σ hσ => ⟨hσ, h σ⟩⟩

theorem builds_bind {m : StateM ExprBuilder α} {f : α → StateM ExprBuilder β}
    {Q : Substitution → α → Prop} {R : Substitution → β → Prop} (hm : Builds m Q)
    (hf : ∀ a, Builds (f a) (fun σ x => Q σ a → R σ x)) : Builds (m >>= f) R := by
  intro b hb
  obtain ⟨hfresh, hmeans⟩ := hm b hb
  obtain ⟨hfresh', hmeans'⟩ := hf (m b).1 (m b).2 hfresh
  refine ⟨hfresh', fun σ hσ => ?_⟩
  obtain ⟨hwithin, hR⟩ := hmeans' σ hσ
  obtain ⟨hwithin', hQ⟩ := hmeans σ hwithin
  exact ⟨hwithin', hR hQ⟩

theorem builds_mapM {f : α → StateM ExprBuilder β} {Q : Substitution → α → β → Prop} {l : List α}
    (h : ∀ a, Builds (f a) (fun σ x => Q σ a x)) :
    Builds (l.mapM f) (fun σ xs => List.Forall₂ (Q σ) l xs) := by
  induction l with
  | nil => exact builds_pure (fun _ => .nil)
  | cons a l ih =>
    rw [List.mapM_cons]
    refine builds_bind (h a) (fun x => builds_bind ih (fun xs => builds_pure (fun σ => ?_)))
    exact fun hxs hx => .cons hx hxs

/-- A start of word characters and a number make one word. -/
theorem lex_placeholder {start : String} (hne : start.toList ≠ [])
    (hstart : start.toList.all alphabet.isWord = true) (i : ℕ) :
    lex alphabet (start ++ Nat.repr i) = [.word (start ++ Nat.repr i)] := by
  apply lex_word
  · rw [String.toList_append]
    exact List.append_ne_nil_of_left_ne_nil hne _
  · intro c hc
    rw [String.toList_append, List.mem_append] at hc
    rcases hc with hc | hc
    · exact List.all_eq_true.mp hstart c hc
    · rw [Nat.toList_repr] at hc
      have hdigit := Nat.isDigit_of_mem_toDigits (by decide) (by decide) hc
      simp [alphabet, Char.isAlphanum, hdigit]

theorem placeholder_injective (start : String) {i j : ℕ}
    (h : start ++ Nat.repr i = start ++ Nat.repr j) : i = j := by
  rw [← String.toList_inj, String.toList_append, String.toList_append, List.append_cancel_left_eq,
    String.toList_inj] at h
  exact Nat.repr_inj.mp h

theorem nameText_placeholder {i : ℕ} {name : String} (h : σ.name ("#n" ++ Nat.repr i) = some name) :
    NameText σ ("#n" ++ Nat.repr i) name :=
  ⟨lex_placeholder (by decide) (by decide) i, by simp [isName, String.toList_append], h⟩

theorem valueText_placeholder {i : ℕ} {v : AttributeValue}
    (h : σ.value (":v" ++ Nat.repr i) = some v) : ValueText σ (":v" ++ Nat.repr i) v :=
  ⟨lex_placeholder (by decide) (by decide) i, by simp [isValue, String.toList_append], h⟩

/-- A builder with one more name is the old one, and the new placeholder stands for it. -/
theorem builds_aliasName (name : String) :
    Builds (aliasName name) (fun σ s => NameText σ s name) := by
  intro b hb
  have hnew : b.names.get? ("#n" ++ Nat.repr b.next) = none := by
    cases h : b.names.get? ("#n" ++ Nat.repr b.next) with
    | none => rfl
    | some name' =>
      obtain ⟨i, hi, hk⟩ := hb.names _ _ h
      rw [placeholder_injective "#n" hk] at hi
      exact absurd hi (lt_irrefl _)
  have hkeep : ∀ k name', b.names.get? k = some name' →
      (b.names.insert ("#n" ++ Nat.repr b.next) name).get? k = some name' := by
    intro k name' hk
    rw [FiniteMap.get?_insert_ne, hk]
    rintro rfl
    rw [hnew] at hk
    cases hk
  refine ⟨⟨?_, ?_, ?_⟩, ?_⟩
  · intro k name' hk
    by_cases hkn : k = "#n" ++ Nat.repr b.next
    · exact ⟨b.next, Nat.lt_succ_self _, hkn⟩
    · obtain ⟨i, hi, hki⟩ := hb.names k name' ((FiniteMap.get?_insert_ne hkn).symm.trans hk)
      exact ⟨i, Nat.lt_succ_of_lt hi, hki⟩
  · intro k v hk
    obtain ⟨i, hi, hki⟩ := hb.values k v hk
    exact ⟨i, Nat.lt_succ_of_lt hi, hki⟩
  · intro k hk
    exact hkeep k _ (hb.valueAlias k hk)
  · intro σ hσ
    refine ⟨⟨fun k name' hk => hσ.names k name' (hkeep k name' hk), hσ.values⟩, ?_⟩
    exact nameText_placeholder (hσ.names _ _ FiniteMap.get?_insert_self)

/-- A builder with one more value is the old one, and the new placeholder stands for it. -/
theorem builds_aliasValue (v : AttributeValue) :
    Builds (aliasValue v) (fun σ s => ValueText σ s v) := by
  intro b hb
  have hnew : b.values.get? (":v" ++ Nat.repr b.next) = none := by
    cases h : b.values.get? (":v" ++ Nat.repr b.next) with
    | none => rfl
    | some v' =>
      obtain ⟨i, hi, hk⟩ := hb.values _ _ h
      rw [placeholder_injective ":v" hk] at hi
      exact absurd hi (lt_irrefl _)
  have hkeep : ∀ k v', b.values.get? k = some v' →
      (b.values.insert (":v" ++ Nat.repr b.next) v).get? k = some v' := by
    intro k v' hk
    rw [FiniteMap.get?_insert_ne, hk]
    rintro rfl
    rw [hnew] at hk
    cases hk
  refine ⟨⟨?_, ?_, hb.valueAlias⟩, ?_⟩
  · intro k name hk
    obtain ⟨i, hi, hki⟩ := hb.names k name hk
    exact ⟨i, Nat.lt_succ_of_lt hi, hki⟩
  · intro k v' hk
    by_cases hkn : k = ":v" ++ Nat.repr b.next
    · exact ⟨b.next, Nat.lt_succ_self _, hkn⟩
    · obtain ⟨i, hi, hki⟩ := hb.values k v' ((FiniteMap.get?_insert_ne hkn).symm.trans hk)
      exact ⟨i, Nat.lt_succ_of_lt hi, hki⟩
  · intro σ hσ
    refine ⟨⟨hσ.names, fun k v' hk => hσ.values k v' (hkeep k v' hk)⟩, ?_⟩
    exact valueText_placeholder (hσ.values _ _ FiniteMap.get?_insert_self)

theorem builds_valueAttrAlias : Builds valueAttrAlias (fun σ s => NameText σ s valueAttr) := by
  intro b hb
  unfold valueAttrAlias
  cases halias : b.valueAlias with
  | some k =>
    refine ⟨hb, fun σ hσ => ⟨hσ, ?_⟩⟩
    have hk := hb.valueAlias k halias
    obtain ⟨i, -, rfl⟩ := hb.names k valueAttr hk
    exact nameText_placeholder (hσ.names _ _ hk)
  | none =>
    obtain ⟨hfresh, hmeans⟩ := builds_aliasName valueAttr b hb
    refine ⟨⟨hfresh.names, hfresh.values, ?_⟩, fun σ hσ => hmeans σ ⟨hσ.names, hσ.values⟩⟩
    intro k hk
    obtain rfl := Option.some.inj hk
    exact FiniteMap.get?_insert_self

/-- The path of an attribute: inside the value attribute, or the value attribute itself. -/
def attrPath (attr : String) : List String :=
  if attr.isEmpty then [valueAttr] else [valueAttr, attr]

theorem builds_valuePath (attr : String) :
    Builds (valuePath attr) (fun σ s => PathText σ s (attrPath attr)) := by
  unfold valuePath attrPath
  refine builds_bind builds_valueAttrAlias (fun v => ?_)
  split
  · exact builds_pure (fun σ hv => hv.pathText)
  · exact builds_bind (builds_aliasName attr)
      (fun a => builds_pure (fun σ ha hv => hv.pathText.dot ha))

/-- What a condition asks of the attributes of an item. -/
def conditionSem (condition : Condition) (item : Attributes) : Bool :=
  match condition with
  | .notExists => (lookup item [pkAttr]).isNone
  | .exists => (lookup item [pkAttr]).isSome
  | .attributeEquals attr expected =>
    sameIfPresent (lookup item (attrPath attr)) (some (encodeValue expected))

theorem builds_conditionClause (condition : Condition) :
    Builds (conditionClause condition) (fun σ s => CondText 1 σ s (conditionSem condition)) := by
  cases condition with
  | notExists =>
    exact builds_bind (builds_aliasName pkAttr) (fun pk => builds_pure (fun σ hpk =>
      hpk.pathText.attributeNotExists.mono (Nat.zero_le 1)))
  | «exists» =>
    exact builds_bind (builds_aliasName pkAttr) (fun pk => builds_pure (fun σ hpk =>
      hpk.pathText.attributeExists.mono (Nat.zero_le 1)))
  | attributeEquals attr expected =>
    exact builds_bind (builds_valuePath attr) (fun path =>
      builds_bind (builds_aliasValue (encodeValue expected)) (fun val =>
        builds_pure (fun σ hval hpath => (hpath.equal hval).mono (Nat.zero_le 1))))

end Cloud.DynamoDbReplicatedKv
