import MtcCa.Cloud.DynamoBuilder

/-! What the requests of the DynamoDB backend ask of an item: their texts parse, and conditions,
guards and update clauses mean what they were built from. -/
namespace Cloud.DynamoDbReplicatedKv

open Text Dynamo ExprBuilder

variable {α γ : Type} {σ : Substitution} {b : ExprBuilder} {item : Attributes}

theorem builds_mono {m : StateM ExprBuilder α} {Q R : Substitution → α → Prop} (h : Builds m Q)
    (hQR : ∀ σ x, Q σ x → R σ x) : Builds m R := by
  intro b hb
  obtain ⟨hfresh, hmeans⟩ := h b hb
  refine ⟨hfresh, fun σ hσ => ?_⟩
  obtain ⟨hwithin, hQ⟩ := hmeans σ hσ
  exact ⟨hwithin, hQR σ _ hQ⟩

/-- A loop over the builder keeps a relation between what it has collected and what it has seen. -/
theorem builds_foldlM {f : γ → α → StateM ExprBuilder γ} {R : Substitution → γ → List α → Prop}
    (h : ∀ acc a seen, Builds (f acc a) (fun σ acc' => R σ acc seen → R σ acc' (seen ++ [a])))
    (l : List α) (acc : γ) (seen : List α) :
    Builds (l.foldlM f acc) (fun σ acc' => R σ acc seen → R σ acc' (seen ++ l)) := by
  induction l generalizing acc seen with
  | nil =>
    refine builds_pure fun σ hR => ?_
    rwa [List.append_nil]
  | cons a l ih =>
    rw [List.foldlM_cons]
    refine builds_bind (h acc a seen) fun acc' => builds_mono (ih acc' (seen ++ [a])) ?_
    intro σ acc'' hrest hstep hR
    have hdone := hrest (hstep hR)
    rwa [List.append_assoc, List.singleton_append] at hdone

theorem finish_valid (b : ExprBuilder) : b.finish.valid = true := by
  simp only [Substitution.valid, ExprBuilder.finish, Bool.and_eq_true]
  constructor
  · split <;> simp_all
  · split <;> simp_all

/-- A request carries every placeholder of its builder. -/
theorem within_finish (b : ExprBuilder) : b.Within b.finish := by
  constructor
  · intro k name hk
    have hne : b.names.keys ≠ ∅ :=
      Finset.ne_empty_of_mem (FiniteMap.mem_keys_iff.mpr (by rw [hk, Option.isSome_some]))
    simp only [Substitution.name, ExprBuilder.finish, if_neg hne, Option.bind_some, hk]
  · intro k v hk
    have hne : b.values.keys ≠ ∅ :=
      Finset.ne_empty_of_mem (FiniteMap.mem_keys_iff.mpr (by rw [hk, Option.isSome_some]))
    simp only [Substitution.value, ExprBuilder.finish, if_neg hne, Option.bind_some, hk]

/-- What was built means what it should to the service that gets the finished request. -/
theorem Builds.finish {m : StateM ExprBuilder α} {Q : Substitution → α → Prop} (h : Builds m Q) :
    Q (m .default).2.finish (m .default).1 :=
  ((h .default fresh_default).2 _ (within_finish _)).2

/-- The texts of conditions, one for each. -/
def ClausesText (σ : Substitution) (conditions : List Condition) (clause : Option String) : Prop :=
  ∃ texts, List.Forall₂ (CondText 1 σ) texts (conditions.map conditionSem) ∧
    clause = if conditions = [] then none else some (join " AND " texts)

theorem builds_conditionsClause (conditions : List Condition) :
    Builds (conditionsClause conditions) (fun σ => ClausesText σ conditions) := by
  unfold conditionsClause
  cases conditions with
  | nil => exact builds_pure fun σ => ⟨[], .nil, rfl⟩
  | cons c cs =>
    refine builds_bind (builds_mapM builds_conditionClause) fun texts => builds_pure fun σ h => ?_
    refine ⟨texts, ?_, rfl⟩
    rw [List.forall₂_map_right_iff]
    exact h.flip.imp fun _ _ => id

/-- A condition expression of such texts has the verdict of all of them. -/
theorem evaluate_join {texts : List String} {sems : List (Attributes → Bool)}
    (h : List.Forall₂ (CondText 1 σ) texts sems) (hne : texts ≠ []) (hvalid : σ.valid = true)
    (item : Attributes) :
    evaluate (some (join " AND " texts)) σ item = .ok (sems.all fun sem => sem item) := by
  obtain ⟨c, hparse, hholds⟩ := parseCondition_join h hne
  simp only [evaluate, hvalid, if_true, hparse, Option.bind_some, hholds]

theorem texts_ne_nil {texts : List String} {conditions : List Condition}
    (h : List.Forall₂ (CondText 1 σ) texts (conditions.map conditionSem)) (hne : conditions ≠ []) :
    texts ≠ [] := by
  rintro rfl
  cases conditions with
  | nil => exact hne rfl
  | cons c cs => cases h

/-- The condition of a put or delete holds when all its conditions do. -/
theorem evaluate_conditionRequest (conditions : List Condition) (item : Attributes) :
    evaluate (conditionRequest conditions).1 (conditionRequest conditions).2 item =
      .ok (conditions.all fun c => conditionSem c item) := by
  obtain ⟨texts, htexts, hclause⟩ := (builds_conditionsClause conditions).finish
  unfold conditionRequest
  generalize conditionsClause conditions .default = run at htexts hclause
  obtain ⟨clause, b⟩ := run
  by_cases hnil : conditions = []
  · rw [if_pos hnil] at hclause
    simp only at hclause
    subst hclause hnil
    rfl
  · rw [if_neg hnil] at hclause
    simp only at hclause
    subst hclause
    simp only
    rw [evaluate_join htexts (texts_ne_nil htexts hnil) (finish_valid b), List.all_map]
    rfl

/-- Without conditions of its own a check holds of every item. -/
theorem evaluate_checkRequest (conditions : List Condition) (item : Attributes) :
    evaluate (some (checkRequest conditions).1) (checkRequest conditions).2 item =
      .ok (conditions.all fun c => conditionSem c item) := by
  by_cases hnil : conditions = []
  · subst hnil
    have hrequest : checkRequest [] =
        ("attribute_exists(" ++ (aliasName pkAttr .default).1 ++ ") OR attribute_not_exists(" ++
          (aliasName pkAttr .default).1 ++ ")", (aliasName pkAttr .default).2.finish) := rfl
    obtain ⟨c, hparse, hholds⟩ := (builds_aliasName pkAttr).finish.pathText.tautology
    simp only [hrequest, evaluate, finish_valid, if_true, hparse, Option.bind_some, hholds,
      List.all_nil]
  · obtain ⟨texts, htexts, hclause⟩ := (builds_conditionsClause conditions).finish
    unfold checkRequest
    generalize conditionsClause conditions .default = run at htexts hclause
    obtain ⟨clause, b⟩ := run
    rw [if_neg hnil] at hclause
    simp only at hclause
    subst hclause
    simp only
    rw [evaluate_join htexts (texts_ne_nil htexts hnil) (finish_valid b), List.all_map]
    rfl

/-- What an action assigns, if it does. -/
def assignOf : UpdateAction → Option (List String × (Attributes → Option AttributeValue))
  | .set attr value => some (attrPath attr, fun _ => some (encodeValue value))
  | .increment attr amount =>
    some (attrPath attr, plusNumber (attrPath attr) (Nat.repr amount.toNat))
  | .remove _ => none

/-- What an action removes, if it does. -/
def removeOf : UpdateAction → Option (List String)
  | .remove attr => some (attrPath attr)
  | _ => none

/-- What an increment asks of the item. -/
def guardOf : UpdateAction → Option (Attributes → Bool)
  | .increment attr _ => some fun item => hasType (lookup item (attrPath attr)) (some (.s "N"))
  | _ => none

/-- The clauses are those of the actions. -/
structure Collects (σ : Substitution) (acc : Clauses) (actions : List UpdateAction) : Prop where
  sets : List.Forall₂ (AssignText σ) acc.sets (actions.filterMap assignOf)
  removes : List.Forall₂ (PathText σ) acc.removes (actions.filterMap removeOf)
  guards : List.Forall₂ (CondText 1 σ) acc.guards (actions.filterMap guardOf)

theorem forall₂_concat {β : Type} {R : α → β → Prop} {l : List α} {l' : List β} {x : α} {y : β}
    (h : List.Forall₂ R l l') (hx : R x y) : List.Forall₂ R (l ++ [x]) (l' ++ [y]) :=
  List.rel_append h (.cons hx .nil)

theorem builds_updateClause (acc : Clauses) (action : UpdateAction) (seen : List UpdateAction) :
    Builds (updateClause acc action) (fun σ acc' =>
      Collects σ acc seen → Collects σ acc' (seen ++ [action])) := by
  cases action with
  | set attr value =>
    refine builds_bind (builds_valuePath attr) fun path =>
      builds_bind (builds_aliasValue (encodeValue value)) fun val => builds_pure ?_
    intro σ hval hpath h
    refine ⟨?_, ?_, ?_⟩
    all_goals rw [List.filterMap_append]
    · exact forall₂_concat h.sets (hpath.assign hval)
    · simpa [List.filterMap_cons, removeOf] using h.removes
    · simpa [List.filterMap_cons, guardOf] using h.guards
  | increment attr amount =>
    refine builds_bind (builds_valuePath attr) fun path =>
      builds_bind (builds_aliasValue (.n (Nat.repr amount.toNat))) fun delta =>
        builds_bind (builds_aliasValue (.s "N")) fun numType => builds_pure ?_
    intro σ htype hdelta hpath h
    refine ⟨?_, ?_, ?_⟩
    all_goals rw [List.filterMap_append]
    · exact forall₂_concat h.sets (hpath.increment hdelta)
    · simpa [List.filterMap_cons, removeOf] using h.removes
    · exact forall₂_concat h.guards (hpath.guard htype)
  | remove attr =>
    refine builds_bind (builds_valuePath attr) fun path => builds_pure ?_
    intro σ hpath h
    refine ⟨?_, ?_, ?_⟩
    all_goals rw [List.filterMap_append]
    · simpa [List.filterMap_cons, assignOf] using h.sets
    · exact forall₂_concat h.removes hpath
    · simpa [List.filterMap_cons, guardOf] using h.guards

/-- All assignments of an update; without any action it touches the marker. -/
def assignsOf (actions : List UpdateAction) :
    List (List String × (Attributes → Option AttributeValue)) :=
  if actions = [] then [([noopMarkerAttr], fun _ => some (.bool true))]
  else actions.filterMap assignOf

/-- The update text of actions, with the guards of its increments. -/
def UpdateText (σ : Substitution) (actions : List UpdateAction) (out : String × List String) :
    Prop :=
  ∃ sets removes, out.1 = updateText sets removes ∧ (sets ≠ [] ∨ removes ≠ []) ∧
    List.Forall₂ (AssignText σ) sets (assignsOf actions) ∧
    List.Forall₂ (PathText σ) removes (actions.filterMap removeOf) ∧
    List.Forall₂ (CondText 1 σ) out.2 (actions.filterMap guardOf)

theorem Collects.eq_nil_iff {acc : Clauses} {actions : List UpdateAction}
    (h : Collects σ acc actions) : acc.sets = [] ∧ acc.removes = [] ↔ actions = [] := by
  have hsets := h.sets.length_eq
  have hremoves := h.removes.length_eq
  constructor
  · rintro ⟨hs, hr⟩
    rw [hs] at hsets
    rw [hr] at hremoves
    cases actions with
    | nil => rfl
    | cons action actions =>
      cases action <;> simp [assignOf, removeOf, List.filterMap_cons] at hsets hremoves
  · rintro rfl
    exact ⟨List.length_eq_zero_iff.mp hsets, List.length_eq_zero_iff.mp hremoves⟩

theorem builds_updateClauses (expr : UpdateExpression) :
    Builds (updateClauses expr) (fun σ => UpdateText σ expr.actions) := by
  unfold updateClauses
  refine builds_bind
    (builds_foldlM (R := Collects) builds_updateClause expr.actions ⟨[], [], []⟩ []) fun acc => ?_
  split
  · next hnil =>
    rw [List.isEmpty_iff, List.isEmpty_iff] at hnil
    refine builds_bind (builds_aliasName noopMarkerAttr) fun marker =>
      builds_bind (builds_aliasValue (.bool true)) fun val => builds_pure ?_
    intro σ hval hmarker h
    have hcollects := h ⟨.nil, .nil, .nil⟩
    rw [List.nil_append] at hcollects
    have hactions := hcollects.eq_nil_iff.mp hnil
    refine ⟨_, acc.removes, rfl, Or.inl (by simp), ?_, hcollects.removes, hcollects.guards⟩
    rw [assignsOf, if_pos hactions]
    exact .cons (hmarker.pathText.assign hval) .nil
  · next hnil =>
    rw [List.isEmpty_iff, List.isEmpty_iff] at hnil
    refine builds_pure fun σ h => ?_
    have hcollects := h ⟨.nil, .nil, .nil⟩
    rw [List.nil_append] at hcollects
    have hactions := fun h => hnil (hcollects.eq_nil_iff.mpr h)
    refine ⟨acc.sets, acc.removes, rfl, not_and_or.mp hnil, ?_, hcollects.removes,
      hcollects.guards⟩
    rw [assignsOf, if_neg hactions]
    exact hcollects.sets

/-- The condition of an update: the item is there, and the conditions and guards hold. -/
def updateSems (actions : List UpdateAction) (conditions : List Condition) :
    List (Attributes → Bool) :=
  (fun item => (lookup item [pkAttr]).isSome) ::
    (conditions.map conditionSem ++ actions.filterMap guardOf)

theorem builds_updateConditionExpression (conditions : List Condition) (guards : List String) :
    Builds (updateConditionExpression conditions guards) (fun σ text =>
      ∀ sems, List.Forall₂ (CondText 1 σ) guards sems → ∃ texts, text = join " AND " texts ∧
        texts ≠ [] ∧ List.Forall₂ (CondText 1 σ) texts
          ((fun item => (lookup item [pkAttr]).isSome) ::
            (conditions.map conditionSem ++ sems))) := by
  refine builds_bind (builds_aliasName pkAttr) fun pk =>
    builds_bind (builds_conditionsClause conditions) fun clause => builds_pure ?_
  rintro σ ⟨texts, htexts, hclause⟩ hpk sems hguards
  have hexists := hpk.pathText.attributeExists.mono (Nat.zero_le 1)
  refine ⟨("attribute_exists(" ++ pk ++ ")") :: (texts ++ guards), ?_, by simp,
    .cons hexists (List.rel_append htexts hguards)⟩
  by_cases hnil : conditions = []
  · subst hnil
    cases htexts
    rw [if_pos rfl] at hclause
    rw [hclause]
    rfl
  · have hne := texts_ne_nil htexts hnil
    rw [if_neg hnil] at hclause
    rw [hclause, Option.toList_some, List.singleton_append, List.cons_append, List.singleton_append,
      join_cons (by simp), join_join_cons hne, join_cons (by simp [hne])]

/-- The two texts of an update request. -/
def updateTexts (expr : UpdateExpression) (conditions : List Condition) :
    StateM ExprBuilder (String × String) := do
  let (text, guards) ← updateClauses expr
  let condition ← updateConditionExpression conditions guards
  return (text, condition)

theorem updateRequest_eq (expr : UpdateExpression) (conditions : List Condition) :
    updateRequest expr conditions = ((updateTexts expr conditions .default).1.1,
      (updateTexts expr conditions .default).1.2,
      (updateTexts expr conditions .default).2.finish) := rfl

theorem builds_updateTexts (expr : UpdateExpression) (conditions : List Condition) :
    Builds (updateTexts expr conditions) (fun σ out =>
      (∃ guards, UpdateText σ expr.actions (out.1, guards)) ∧
        ∃ texts, out.2 = join " AND " texts ∧ texts ≠ [] ∧
          List.Forall₂ (CondText 1 σ) texts (updateSems expr.actions conditions)) := by
  refine builds_bind (builds_updateClauses expr) fun out =>
    builds_bind (builds_updateConditionExpression conditions out.2) fun text => builds_pure ?_
  rintro σ htext ⟨sets, removes, hout, hne, hsets, hremoves, hguards⟩
  exact ⟨⟨out.2, sets, removes, hout, hne, hsets, hremoves, hguards⟩, htext _ hguards⟩

/-- What an update request means: its condition asks for `updateSems`, and its expression assigns
what the actions assign and removes what they remove. -/
theorem updateRequest_spec (expr : UpdateExpression) (conditions : List Condition) :
    ∃ u, parseUpdate (updateRequest expr conditions).1 = some u ∧
      (∀ item, evaluate (some (updateRequest expr conditions).2.1)
          (updateRequest expr conditions).2.2 item =
        .ok ((updateSems expr.actions conditions).all fun sem => sem item)) ∧
      ∀ item assigned,
        List.Forall₂ (fun a x => a.1 = x.1 ∧ a.2 item = some x.2) (assignsOf expr.actions)
          assigned →
        (assigned.map Prod.fst ++ expr.actions.filterMap removeOf).Pairwise Apart →
        u.apply (updateRequest expr conditions).2.2 item =
          (assigned.foldlM (fun item s => setPath s.2 item s.1) item).bind
            (fun item => (expr.actions.filterMap removeOf).foldlM removePath item) := by
  rw [updateRequest_eq]
  obtain ⟨⟨guards, sets, removes, htext, hne, hsets, hremoves, -⟩, texts, hcondition, htexts,
    hsems⟩ := (builds_updateTexts expr conditions).finish
  obtain ⟨u, hparse, happly⟩ := parseUpdate_updateText hsets hremoves hne
  simp only at htext
  refine ⟨u, by rw [htext, hparse], fun item => ?_, happly⟩
  rw [hcondition]
  exact evaluate_join hsems htexts (finish_valid _) item

end Cloud.DynamoDbReplicatedKv
