import MtcCa.Cloud.DynamoValues

/-! What the expression texts of the DynamoDB backend mean to the service: every text that the
builder makes parses, and its placeholders stand for what the builder was given. -/
namespace Cloud.DynamoDbReplicatedKv

open Text Dynamo ExprBuilder

variable {σ : Substitution} {s s' : String} {path : List String} {v : AttributeValue}
  {item : Attributes}

/-- The text is one placeholder, which stands for a name. -/
structure NameText (σ : Substitution) (s name : String) : Prop where
  lex_eq : lex alphabet s = [.word s]
  isName : isName s = true
  name_eq : σ.name s = some name

/-- The text is one placeholder, which stands for a value. -/
structure ValueText (σ : Substitution) (s : String) (v : AttributeValue) : Prop where
  lex_eq : lex alphabet s = [.word s]
  isValue : isValue s = true
  value_eq : σ.value s = some v

/-- The pieces of a path of placeholders. -/
def pathTokens (p : Path) : List Token := joined (.punct '.') (p.map (fun w => [.word w]))

/-- The text is a path of placeholders, which stands for a path of names. -/
def PathText (σ : Substitution) (s : String) (path : List String) : Prop :=
  ∃ p, p ≠ [] ∧ (∀ w ∈ p, isName w = true) ∧ lex alphabet s = pathTokens p ∧
    σ.resolve p = some path

theorem NameText.pathText {name : String} (h : NameText σ s name) : PathText σ s [name] := by
  refine ⟨[s], by simp, ?_, h.lex_eq, ?_⟩
  · intro w hw
    rw [List.mem_singleton.mp hw]
    exact h.isName
  · simp [Substitution.resolve, h.name_eq]

theorem PathText.dot {name : String} (h : PathText σ s path) (h' : NameText σ s' name) :
    PathText σ (s ++ "." ++ s') (path ++ [name]) := by
  obtain ⟨p, hp, hnames, hlex, hpath⟩ := h
  refine ⟨p ++ [s'], by simp, ?_, ?_, ?_⟩
  · intro w hw
    rcases List.mem_append.mp hw with hw | hw
    · exact hnames w hw
    · rw [List.mem_singleton.mp hw]
      exact h'.isName
  · rw [lex_append_append ⟨'.', rfl, rfl⟩ ⟨'.', rfl, rfl⟩, hlex, h'.lex_eq, pathTokens, pathTokens,
      List.map_append, List.map_singleton, joined_append_singleton (by simpa using hp)]
    rw [List.append_assoc]
    rfl
  · rw [Substitution.resolve] at hpath ⊢
    simp [List.mapM_append, hpath, h'.name_eq]

/-- A path is parsed up to its last name. -/
theorem parsePath_pathTokens {p : Path} (hp : p ≠ []) (hnames : ∀ w ∈ p, isName w = true)
    (rest : List Token) (hrest : expect (.punct '.') rest = none) :
    parsePath (pathTokens p ++ rest) = some (p, rest) := by
  induction p with
  | nil => exact absurd rfl hp
  | cons w p ih =>
    have hw := hnames w (List.mem_cons_self ..)
    cases p with
    | nil =>
      cases rest with
      | nil => simp [pathTokens, joined, parsePath, hw]
      | cons t ts =>
        have ht : t ≠ .punct '.' := by
          rintro rfl
          simp at hrest
        simp [pathTokens, joined, parsePath, hw, ht]
    | cons w' p =>
      have hmore := ih (by simp) (fun x hx => hnames x (List.mem_cons_of_mem _ hx))
      have htokens : pathTokens (w :: w' :: p) ++ rest =
          .word w :: .punct '.' :: (pathTokens (w' :: p) ++ rest) := rfl
      rw [htokens, parsePath, if_pos hw, hmore]
      rfl

theorem isValue_eq_false_of_isName {w : String} (h : isName w = true) : isValue w = false := by
  rw [isName, beq_iff_eq] at h
  rw [isValue, h]
  rfl

theorem parseOperand_pathTokens {p : Path} (hp : p ≠ []) (hnames : ∀ w ∈ p, isName w = true)
    (rest : List Token) (hrest : expect (.punct '.') rest = none) :
    parseOperand (pathTokens p ++ rest) = some (.path p, rest) := by
  have hpath := parsePath_pathTokens hp hnames rest hrest
  cases p with
  | nil => exact absurd rfl hp
  | cons w p =>
    obtain ⟨ts, hts⟩ : ∃ ts, pathTokens (w :: p) ++ rest = .word w :: ts := by
      cases p with
      | nil => exact ⟨rest, rfl⟩
      | cons w' p => exact ⟨_, rfl⟩
    rw [hts] at hpath ⊢
    simp [parseOperand, isValue_eq_false_of_isName (hnames w (List.mem_cons_self ..)), hpath]

theorem parseOperand_of_isValue {w : String} (hw : isValue w = true) (rest : List Token) :
    parseOperand (.word w :: rest) = some (.value w, rest) := by
  rw [parseOperand, if_pos hw]

theorem parsePathArgument_eq {p : Path} {rest : List Token} (hp : p ≠ [])
    (hnames : ∀ w ∈ p, isName w = true) :
    parsePathArgument (.punct '(' :: (pathTokens p ++ .punct ')' :: rest)) = some (p, rest) := by
  have hpath := parsePath_pathTokens hp hnames (.punct ')' :: rest) rfl
  simp [parsePathArgument, hpath]

theorem parsePathOperandArguments_eq {p : Path} {rest : List Token} (hp : p ≠ [])
    (hnames : ∀ w ∈ p, isName w = true) (hs : isValue s = true) :
    parsePathOperandArguments
      (.punct '(' :: (pathTokens p ++ .punct ',' :: .word s :: .punct ')' :: rest)) =
        some ((p, .value s), rest) := by
  have hpath := parsePath_pathTokens hp hnames (.punct ',' :: .word s :: .punct ')' :: rest) rfl
  simp [parsePathOperandArguments, hpath, parseOperand_of_isValue hs]

/-! What an atom starts with decides how it is read. -/

theorem parseAtom_attributeExists (inner : Parser Cond) (ts : List Token) :
    parseAtom inner (.word "attribute_exists" :: ts) =
      (parsePathArgument ts).map (fun r => (.attributeExists r.1, r.2)) := rfl

theorem parseAtom_attributeNotExists (inner : Parser Cond) (ts : List Token) :
    parseAtom inner (.word "attribute_not_exists" :: ts) =
      (parsePathArgument ts).map (fun r => (.attributeNotExists r.1, r.2)) := rfl

theorem parseAtom_attributeType (inner : Parser Cond) (ts : List Token) :
    parseAtom inner (.word "attribute_type" :: ts) =
      (parsePathOperandArguments ts).map (fun r => (.attributeType r.1.1 r.1.2, r.2)) := rfl

theorem parseAtom_beginsWith (inner : Parser Cond) (ts : List Token) :
    parseAtom inner (.word "begins_with" :: ts) =
      (parsePathOperandArguments ts).map (fun r => (.beginsWith r.1.1 r.1.2, r.2)) := rfl

/-- The text is a condition with parentheses at most `n` deep, with this meaning. -/
def CondText (n : ℕ) (σ : Substitution) (s : String) (sem : Attributes → Bool) : Prop :=
  ∃ c, (∀ m rest, n ≤ m → parseAtom (parseCond m) (lex alphabet s ++ rest) = some (c, rest)) ∧
    ∀ item, c.holds σ item = some (sem item)

theorem CondText.mono {n n' : ℕ} {sem : Attributes → Bool} (h : CondText n σ s sem)
    (hle : n ≤ n') : CondText n' σ s sem := by
  obtain ⟨c, hparse, hholds⟩ := h
  exact ⟨c, fun m rest hm => hparse m rest (le_trans hle hm), hholds⟩

theorem PathText.attributeExists (h : PathText σ s path) :
    CondText 0 σ ("attribute_exists(" ++ s ++ ")") (fun item => (lookup item path).isSome) := by
  obtain ⟨p, hp, hnames, hlex, hpath⟩ := h
  have htokens : ∀ rest, lex alphabet ("attribute_exists(" ++ s ++ ")") ++ rest =
      .word "attribute_exists" :: .punct '(' :: (pathTokens p ++ .punct ')' :: rest) := by
    intro rest
    rw [lex_around ⟨'(', rfl, rfl⟩ ⟨')', rfl, rfl⟩, hlex, List.append_assoc, List.append_assoc]
    rfl
  refine ⟨.attributeExists p, ?_, ?_⟩
  · intro m rest _
    rw [htokens, parseAtom_attributeExists, parsePathArgument_eq hp hnames]
    rfl
  · intro item
    simp [Cond.holds, hpath]

theorem PathText.attributeNotExists (h : PathText σ s path) :
    CondText 0 σ ("attribute_not_exists(" ++ s ++ ")") (fun item => (lookup item path).isNone) := by
  obtain ⟨p, hp, hnames, hlex, hpath⟩ := h
  have htokens : ∀ rest, lex alphabet ("attribute_not_exists(" ++ s ++ ")") ++ rest =
      .word "attribute_not_exists" :: .punct '(' :: (pathTokens p ++ .punct ')' :: rest) := by
    intro rest
    rw [lex_around ⟨'(', rfl, rfl⟩ ⟨')', rfl, rfl⟩, hlex, List.append_assoc, List.append_assoc]
    rfl
  refine ⟨.attributeNotExists p, ?_, ?_⟩
  · intro m rest _
    rw [htokens, parseAtom_attributeNotExists, parsePathArgument_eq hp hnames]
    rfl
  · intro item
    simp [Cond.holds, hpath]

theorem lex_call {f name : String} (hf : lex alphabet f = [.word name, .punct '('])
    (hend : EndsApart alphabet f) {p : Path} (hlex : lex alphabet s = pathTokens p)
    (hs' : lex alphabet s' = [.word s']) (rest : List Token) :
    lex alphabet (f ++ s ++ ", " ++ s' ++ ")") ++ rest = .word name :: .punct '(' ::
      (pathTokens p ++ .punct ',' :: .word s' :: .punct ')' :: rest) := by
  rw [lex_append_of_startsApart ⟨')', rfl, rfl⟩,
    lex_append_append ⟨',', rfl, rfl⟩ ⟨' ', rfl, rfl⟩, lex_append_of_endsApart hend, hf, hlex, hs']
  simp only [List.append_assoc]
  rfl

theorem PathText.attributeType (h : PathText σ s path) (h' : ValueText σ s' v) :
    CondText 0 σ ("attribute_type(" ++ s ++ ", " ++ s' ++ ")")
      (fun item => hasType (lookup item path) (some v)) := by
  obtain ⟨p, hp, hnames, hlex, hpath⟩ := h
  have htokens := lex_call (show lex alphabet "attribute_type(" =
    [.word "attribute_type", .punct '('] from rfl) ⟨'(', rfl, rfl⟩ hlex h'.lex_eq
  refine ⟨.attributeType p (.value s'), ?_, ?_⟩
  · intro m rest _
    rw [htokens, parseAtom_attributeType, parsePathOperandArguments_eq hp hnames h'.isValue]
    rfl
  · intro item
    simp [Cond.holds, hpath, Operand.eval, h'.value_eq]

theorem PathText.beginsWith (h : PathText σ s path) (h' : ValueText σ s' v) :
    CondText 0 σ ("begins_with(" ++ s ++ ", " ++ s' ++ ")")
      (fun item => hasStart (lookup item path) (some v)) := by
  obtain ⟨p, hp, hnames, hlex, hpath⟩ := h
  have htokens := lex_call (show lex alphabet "begins_with(" =
    [.word "begins_with", .punct '('] from rfl) ⟨'(', rfl, rfl⟩ hlex h'.lex_eq
  refine ⟨.beginsWith p (.value s'), ?_, ?_⟩
  · intro m rest _
    rw [htokens, parseAtom_beginsWith, parsePathOperandArguments_eq hp hnames h'.isValue]
    rfl
  · intro item
    simp [Cond.holds, hpath, Operand.eval, h'.value_eq]

/-- Text that starts with a name placeholder is read as a comparison. -/
theorem parseAtom_of_isName {inner : Parser Cond} {w : String} (ts : List Token)
    (hw : isName w = true) : parseAtom inner (.word w :: ts) = parseComparison (.word w :: ts) := by
  have hne : ∀ u, isName u = false → w ≠ u := by
    rintro u hu rfl
    rw [hw] at hu
    cases hu
  rw [parseAtom]
  · intro ts' h
    cases h
  · intro ts' h
    exact hne "attribute_exists" rfl (Token.word.inj (List.cons.inj h).1)
  · intro ts' h
    exact hne "attribute_not_exists" rfl (Token.word.inj (List.cons.inj h).1)
  · intro ts' h
    exact hne "attribute_type" rfl (Token.word.inj (List.cons.inj h).1)
  · intro ts' h
    exact hne "begins_with" rfl (Token.word.inj (List.cons.inj h).1)

theorem PathText.equal (h : PathText σ s path) (h' : ValueText σ s' v) :
    CondText 0 σ (s ++ " = " ++ s') (fun item => sameIfPresent (lookup item path) (some v)) := by
  obtain ⟨p, hp, hnames, hlex, hpath⟩ := h
  have htokens : ∀ rest, lex alphabet (s ++ " = " ++ s') ++ rest =
      pathTokens p ++ .punct '=' :: .word s' :: rest := by
    intro rest
    rw [lex_append_append ⟨' ', rfl, rfl⟩ ⟨' ', rfl, rfl⟩, hlex, h'.lex_eq]
    simp only [List.append_assoc]
    rfl
  refine ⟨.equal (.path p) (.value s'), ?_, ?_⟩
  · intro m rest _
    have hoperand := parseOperand_pathTokens hp hnames (.punct '=' :: .word s' :: rest) rfl
    have hcomparison : parseComparison (pathTokens p ++ .punct '=' :: .word s' :: rest) =
        some (.equal (.path p) (.value s'), rest) := by
      simp [parseComparison, hoperand, parseOperand_of_isValue h'.isValue]
    rw [htokens, ← hcomparison]
    cases p with
    | nil => exact absurd rfl hp
    | cons w p =>
      have hw := hnames w (List.mem_cons_self ..)
      cases p with
      | nil => exact parseAtom_of_isName _ hw
      | cons w' p => exact parseAtom_of_isName _ hw
  · intro item
    simp [Cond.holds, Operand.eval, hpath, h'.value_eq]

theorem CondText.lex_ne_nil {n : ℕ} {sem : Attributes → Bool} (h : CondText n σ s sem) :
    lex alphabet s ≠ [] := by
  obtain ⟨c, hparse, -⟩ := h
  intro hnil
  have hnone := hparse n [] (le_refl _)
  rw [hnil] at hnone
  cases hnone

/-- Conditions under one connective are parsed one by one. -/
theorem parseConnected_joined {keyword : String} {op : Cond → Cond → Cond} {atom : Parser Cond}
    {P : List Token → Prop} {tss : List (List Token)} {cs : List Cond} {c : Cond}
    {rest : List Token} (hne : ∀ ts ∈ tss, ts ≠ []) (hsep : ∀ ts, P (.word keyword :: ts))
    (hatoms : List.Forall₂ (fun ts c => ∀ rest, P rest → atom (ts ++ rest) = some (c, rest))
      tss cs)
    (hc : connect op cs = some c) (hok : P rest) (hrest : expect (.word keyword) rest = none) :
    parseConnected keyword op atom (joined (.word keyword) tss ++ rest) = some (c, rest) := by
  have hcs : cs ≠ [] := by
    rintro rfl
    cases hc
  have hlen : cs.length ≤ (joined (.word keyword) tss ++ rest).length := by
    have hjoined : tss.length ≤ (joined (.word keyword) tss).length := le_length_joined hne
    rw [← hatoms.length_eq, List.length_append]
    omega
  have hparse := sepBy_joined hsep hok hrest hatoms hcs hlen
  rw [parseConnected, hparse]
  simp [hc]

/-- The meaning of conditions joined by `AND`. -/
theorem connect_and_holds {cs : List Cond} {sems : List (Attributes → Bool)}
    (h : List.Forall₂ (fun c sem => ∀ item, c.holds σ item = some (sem item)) cs sems)
    (hcs : cs ≠ []) : ∃ c, connect .and cs = some c ∧
      ∀ item, c.holds σ item = some (sems.all (fun sem => sem item)) := by
  induction h with
  | nil => exact absurd rfl hcs
  | @cons c sem cs sems hc hrest ih =>
    cases hrest with
    | nil => exact ⟨c, rfl, fun item => by simp [hc item]⟩
    | cons hd hrest =>
      obtain ⟨d, hd', hholds⟩ := ih (by simp)
      refine ⟨.and c d, by simp [connect, hd'], fun item => ?_⟩
      simp [Cond.holds, hc item, hholds item]

/-- The conditions behind their texts. -/
theorem exists_conds {n : ℕ} {texts : List String} {sems : List (Attributes → Bool)}
    (h : List.Forall₂ (CondText n σ) texts sems) : ∃ cs : List Cond,
      List.Forall₂ (fun ts c => ∀ m rest, n ≤ m →
        parseAtom (parseCond m) (ts ++ rest) = some (c, rest)) (texts.map (lex alphabet)) cs ∧
      List.Forall₂ (fun c sem => ∀ item, c.holds σ item = some (sem item)) cs sems := by
  induction h with
  | nil => exact ⟨[], .nil, .nil⟩
  | cons hc _ ih =>
    obtain ⟨c, hparse, hholds⟩ := hc
    obtain ⟨cs, hparses, hsems⟩ := ih
    exact ⟨c :: cs, .cons hparse hparses, .cons hholds hsems⟩

/-- Texts with a meaning are not blank. -/
theorem lex_ne_nil_of_mem {β : Type} {R : String → β → Prop} {texts : List String} {l : List β}
    (hR : ∀ s b, R s b → lex alphabet s ≠ []) (h : List.Forall₂ R texts l) :
    ∀ ts ∈ texts.map (lex alphabet), ts ≠ [] := by
  induction h with
  | nil => simp
  | cons hb _ ih =>
    intro ts hts
    rcases List.mem_cons.mp hts with rfl | hts
    · exact hR _ _ hb
    · exact ih ts hts

/-- Joined conditions parse in front of what is no `AND`, and hold when all of them do. -/
theorem parseAnd_join {n : ℕ} {texts : List String} {sems : List (Attributes → Bool)}
    (h : List.Forall₂ (CondText n σ) texts sems) (hne : texts ≠ []) :
    ∃ c, lex alphabet (join " AND " texts) ≠ [] ∧
      (∀ m rest, n ≤ m → expect (.word "AND") rest = none →
        parseConnected "AND" .and (parseAtom (parseCond m))
          (lex alphabet (join " AND " texts) ++ rest) = some (c, rest)) ∧
      ∀ item, c.holds σ item = some (sems.all (fun sem => sem item)) := by
  obtain ⟨cs, hparse, hholds⟩ := exists_conds h
  have hcs : cs ≠ [] := by
    intro hnil
    have hlen := hparse.length_eq
    rw [hnil, List.length_map, List.length_nil] at hlen
    exact hne (List.length_eq_zero_iff.mp hlen)
  obtain ⟨c, hc, hmeaning⟩ := connect_and_holds hholds hcs
  have hjoin : ∀ m rest, n ≤ m → expect (.word "AND") rest = none →
      parseConnected "AND" .and (parseAtom (parseCond m))
        (lex alphabet (join " AND " texts) ++ rest) = some (c, rest) := by
    intro m rest hm hrest
    rw [lex_join (t := .word "AND") rfl ⟨' ', rfl, rfl⟩ ⟨' ', rfl, rfl⟩]
    exact parseConnected_joined (P := fun _ => True)
      (lex_ne_nil_of_mem (fun _ _ hc => hc.lex_ne_nil) h) (fun _ => trivial)
      (hparse.imp (fun ts c hts rest _ => hts m rest hm)) hc trivial hrest
  refine ⟨c, ?_, hjoin, hmeaning⟩
  intro hnil
  have hnone := hjoin n [] (le_refl _) rfl
  rw [hnil] at hnone
  cases hnone

/-- Alternatives joined by `OR` parse in front of what is no connective. -/
theorem parseCond_joined {n : ℕ} {tss : List (List Token)} {cs : List Cond} {c : Cond}
    {rest : List Token} (hne : ∀ ts ∈ tss, ts ≠ [])
    (hands : List.Forall₂ (fun ts c => ∀ rest, expect (.word "AND") rest = none →
      parseConnected "AND" .and (parseAtom (parseCond n)) (ts ++ rest) = some (c, rest)) tss cs)
    (hc : connect .or cs = some c) (hand : expect (.word "AND") rest = none)
    (hor : expect (.word "OR") rest = none) :
    parseCond (n + 1) (joined (.word "OR") tss ++ rest) = some (c, rest) :=
  parseConnected_joined (P := fun rest => expect (.word "AND") rest = none) hne
    (fun _ => rfl) hands hc hand hor

/-- A condition expression of joined conditions holds when all of them do. -/
theorem parseCondition_join {texts : List String} {sems : List (Attributes → Bool)}
    (h : List.Forall₂ (CondText 1 σ) texts sems) (hne : texts ≠ []) :
    ∃ c, parseCondition (join " AND " texts) = some c ∧
      ∀ item, c.holds σ item = some (sems.all (fun sem => sem item)) := by
  obtain ⟨c, hnil, hparse, hholds⟩ := parseAnd_join h hne
  refine ⟨c, ?_, hholds⟩
  have hcond : parseCond ((lex alphabet (join " AND " texts)).length + 2)
      (joined (.word "OR") [lex alphabet (join " AND " texts)] ++ []) = some (c, []) :=
    parseCond_joined (by simpa using hnil)
      (.cons (fun rest => hparse _ rest (Nat.le_add_left 1 _)) .nil) rfl rfl rfl
  rw [List.append_nil, joined] at hcond
  rw [parseCondition, hcond]

/-- The guard of an increment asks for a number. -/
theorem PathText.guard (h : PathText σ s path) (h' : ValueText σ s' (.s "N")) :
    CondText 1 σ ("(attribute_exists(" ++ s ++ ") AND attribute_type(" ++ s ++ ", " ++ s' ++ "))")
      (fun item => hasType (lookup item path) (some (.s "N"))) := by
  have hatoms : List.Forall₂ (CondText 0 σ)
      ["attribute_exists(" ++ s ++ ")", "attribute_type(" ++ s ++ ", " ++ s' ++ ")"]
      [fun item => (lookup item path).isSome,
        fun item => hasType (lookup item path) (some (.s "N"))] :=
    .cons h.attributeExists (.cons (h.attributeType h') .nil)
  obtain ⟨c, hnil, hparse, hholds⟩ := parseAnd_join hatoms (by simp)
  generalize htext : join " AND "
    ["attribute_exists(" ++ s ++ ")", "attribute_type(" ++ s ++ ", " ++ s' ++ ")"] = text
    at hnil hparse
  have hwhole : "(attribute_exists(" ++ s ++ ") AND attribute_type(" ++ s ++ ", " ++ s' ++ "))" =
      "(" ++ text ++ ")" := by
    rw [← htext]
    have h₁ : "(attribute_exists(" = "(" ++ "attribute_exists(" := rfl
    have h₂ : ") AND attribute_type(" = ")" ++ (" AND " ++ "attribute_type(") := rfl
    have h₃ : "))" = ")" ++ ")" := rfl
    rw [h₁, h₂, h₃]
    simp only [join, String.append_assoc]
  refine ⟨c, ?_, ?_⟩
  · intro m rest hm
    obtain ⟨k, rfl⟩ : ∃ k, m = k + 1 := ⟨m - 1, by omega⟩
    have hcond : parseCond (k + 1) (joined (.word "OR") [lex alphabet text] ++ .punct ')' :: rest) =
        some (c, .punct ')' :: rest) := by
      exact parseCond_joined (by simpa using hnil)
        (.cons (fun rest => hparse k rest (Nat.zero_le k)) .nil) rfl rfl rfl
    have htokens : lex alphabet ("(" ++ text ++ ")") ++ rest =
        .punct '(' :: (lex alphabet text ++ .punct ')' :: rest) := by
      rw [lex_around ⟨'(', rfl, rfl⟩ ⟨')', rfl, rfl⟩, List.append_assoc, List.append_assoc]
      rfl
    rw [joined] at hcond
    rw [hwhole, htokens, parseAtom]
    simp [hcond]
  · intro item
    rw [hholds item]
    simp only [List.all_cons, List.all_nil, Bool.and_true]
    cases lookup item path with
    | none => rfl
    | some a => rw [Option.isSome_some, Bool.true_and]

/-- The condition of a check without conditions always holds. -/
theorem PathText.tautology (h : PathText σ s path) :
    ∃ c, parseCondition ("attribute_exists(" ++ s ++ ") OR attribute_not_exists(" ++ s ++ ")") =
      some c ∧ ∀ item, c.holds σ item = some true := by
  obtain ⟨c, hnil, hparse, hholds⟩ := parseAnd_join (.cons h.attributeExists .nil) (by simp)
  obtain ⟨d, hnil', hparse', hholds'⟩ := parseAnd_join (.cons h.attributeNotExists .nil) (by simp)
  rw [join] at hnil hparse hnil' hparse'
  have hwhole : "attribute_exists(" ++ s ++ ") OR attribute_not_exists(" ++ s ++ ")" =
      join " OR " ["attribute_exists(" ++ s ++ ")", "attribute_not_exists(" ++ s ++ ")"] := by
    have h₁ : ") OR attribute_not_exists(" = ")" ++ (" OR " ++ "attribute_not_exists(") := rfl
    rw [h₁]
    simp only [join, String.append_assoc]
  refine ⟨.or c d, ?_, ?_⟩
  · have hcond : ∀ n, parseCond (n + 1) (joined (.word "OR")
        [lex alphabet ("attribute_exists(" ++ s ++ ")"),
          lex alphabet ("attribute_not_exists(" ++ s ++ ")")] ++ []) = some (.or c d, []) := by
      intro n
      refine parseCond_joined ?_ (.cons (fun rest => hparse n rest (Nat.zero_le n))
        (.cons (fun rest => hparse' n rest (Nat.zero_le n)) .nil)) rfl rfl rfl
      simpa using ⟨hnil, hnil'⟩
    have htokens := lex_join (A := alphabet) (t := .word "OR")
      (l := ["attribute_exists(" ++ s ++ ")", "attribute_not_exists(" ++ s ++ ")"])
      (show lex alphabet " OR " = [.word "OR"] from rfl) ⟨' ', rfl, rfl⟩ ⟨' ', rfl, rfl⟩
    rw [List.map_cons, List.map_singleton] at htokens
    rw [hwhole, parseCondition, htokens]
    have hall := hcond ((joined (.word "OR") [lex alphabet ("attribute_exists(" ++ s ++ ")"),
      lex alphabet ("attribute_not_exists(" ++ s ++ ")")]).length + 1)
    rw [List.append_nil] at hall
    rw [hall]
  · intro item
    have hc := hholds item
    have hd := hholds' item
    simp only [List.all_cons, List.all_nil, Bool.and_true] at hc hd
    simp only [Cond.holds, hc, hd]
    cases lookup item path <;> rfl

/-- The text is a `SET` action: it assigns to a path what it computes on the item. -/
def AssignText (σ : Substitution) (s : String)
    (a : List String × (Attributes → Option AttributeValue)) : Prop :=
  ∃ p sv, (∀ rest, expect (.punct '+') rest = none →
      parseAssignment (lex alphabet s ++ rest) = some ((p, sv), rest)) ∧
    σ.resolve p = some a.1 ∧ ∀ item, SetValue.eval σ item sv = a.2 item

theorem PathText.assign (h : PathText σ s path) (h' : ValueText σ s' v) :
    AssignText σ (s ++ " = " ++ s') (path, fun _ => some v) := by
  obtain ⟨p, hp, hnames, hlex, hpath⟩ := h
  refine ⟨p, .operand (.value s'), ?_, hpath, ?_⟩
  · intro rest hrest
    have htokens : lex alphabet (s ++ " = " ++ s') ++ rest =
        pathTokens p ++ .punct '=' :: .word s' :: rest := by
      rw [lex_append_append ⟨' ', rfl, rfl⟩ ⟨' ', rfl, rfl⟩, hlex, h'.lex_eq]
      simp only [List.append_assoc]
      rfl
    have htarget := parsePath_pathTokens hp hnames (.punct '=' :: .word s' :: rest) rfl
    rw [htokens, parseAssignment, htarget]
    simp [parseOperand_of_isValue h'.isValue, hrest]
  · intro item
    simp [SetValue.eval, Operand.eval, h'.value_eq]

/-- What an increment computes: a sum, where there is a number. -/
def plusNumber (path : List String) (delta : String) (item : Attributes) : Option AttributeValue :=
  match lookup item path with
  | some (.n x) => (addNumbers x delta).map .n
  | _ => none

theorem PathText.increment {delta : String} (h : PathText σ s path)
    (h' : ValueText σ s' (.n delta)) :
    AssignText σ (s ++ " = " ++ s ++ " + " ++ s') (path, plusNumber path delta) := by
  obtain ⟨p, hp, hnames, hlex, hpath⟩ := h
  refine ⟨p, .plus (.path p) (.value s'), ?_, hpath, ?_⟩
  · intro rest hrest
    have htokens : lex alphabet (s ++ " = " ++ s ++ " + " ++ s') ++ rest =
        pathTokens p ++ .punct '=' :: (pathTokens p ++ .punct '+' :: .word s' :: rest) := by
      rw [lex_append_append ⟨' ', rfl, rfl⟩ ⟨' ', rfl, rfl⟩,
        lex_append_append ⟨' ', rfl, rfl⟩ ⟨' ', rfl, rfl⟩, hlex, h'.lex_eq]
      simp only [List.append_assoc]
      rfl
    have htarget := parsePath_pathTokens hp hnames
      (.punct '=' :: (pathTokens p ++ .punct '+' :: .word s' :: rest)) rfl
    have hleft := parseOperand_pathTokens hp hnames (.punct '+' :: .word s' :: rest) rfl
    rw [htokens, parseAssignment, htarget]
    simp [hleft, parseOperand_of_isValue h'.isValue]
  · intro item
    simp only [SetValue.eval, Operand.eval, hpath, h'.value_eq, Option.map_some, Option.join_some,
      plusNumber]
    cases lookup item path with
    | none => rfl
    | some a => cases a <;> rfl

/-- The pieces of a clause: nothing without items, else the keyword and the items. -/
def clauseTokens (keyword : String) (tss : List (List Token)) : List Token :=
  if tss.isEmpty then [] else .word keyword :: joined (.punct ',') tss

theorem parseClause_clauseTokens {α : Type} {keyword : String} {item : Parser α}
    {P : List Token → Prop} {tss : List (List Token)} {xs : List α} {rest : List Token}
    (hne : ∀ ts ∈ tss, ts ≠ []) (hsep : ∀ ts, P (.punct ',' :: ts))
    (hitems : List.Forall₂ (fun ts x => ∀ rest, P rest → item (ts ++ rest) = some (x, rest)) tss xs)
    (hP : P rest) (hcomma : expect (.punct ',') rest = none)
    (hkeyword : expect (.word keyword) rest = none) :
    parseClause keyword item (clauseTokens keyword tss ++ rest) = some (xs, rest) := by
  cases hitems with
  | nil => simp [clauseTokens, parseClause, hkeyword]
  | @cons ts x tss xs hitem hitems =>
    have hall := List.Forall₂.cons hitem hitems
    have hlen : (x :: xs).length ≤ (joined (.punct ',') (ts :: tss) ++ rest).length := by
      have hjoined : (ts :: tss).length ≤ (joined (.punct ',') (ts :: tss)).length :=
        le_length_joined hne
      rw [← hall.length_eq, List.length_append]
      omega
    have hparse := sepBy_joined hsep hP hcomma hall (by simp) hlen
    simp only [clauseTokens, List.isEmpty_cons, Bool.false_eq_true, if_false, List.cons_append,
      parseClause, expect_cons]
    exact hparse

theorem lex_updateText {sets removes : List String} :
    lex alphabet (updateText sets removes) =
      clauseTokens "SET" (sets.map (lex alphabet)) ++
        clauseTokens "REMOVE" (removes.map (lex alphabet)) := by
  have hjoin : ∀ l : List String, lex alphabet (join ", " l) =
      joined (.punct ',') (l.map (lex alphabet)) := fun l =>
    lex_join rfl ⟨',', rfl, rfl⟩ ⟨' ', rfl, rfl⟩
  have hset : lex alphabet ("SET " ++ join ", " sets) =
      .word "SET" :: joined (.punct ',') (sets.map (lex alphabet)) := by
    rw [lex_append_of_endsApart ⟨' ', rfl, rfl⟩, hjoin]
    rfl
  have hremove : lex alphabet ("REMOVE " ++ join ", " removes) =
      .word "REMOVE" :: joined (.punct ',') (removes.map (lex alphabet)) := by
    rw [lex_append_of_endsApart ⟨' ', rfl, rfl⟩, hjoin]
    rfl
  have hnonempty : ("SET " ++ join ", " sets).isEmpty = false := by
    simp
  unfold updateText clauseTokens
  cases sets with
  | nil =>
    cases removes with
    | nil => rfl
    | cons r removes =>
      have hempty : "".isEmpty = true := rfl
      simp only [List.isEmpty_nil, if_true, List.isEmpty_cons, Bool.false_eq_true, if_false,
        hempty, String.empty_append, List.map_nil, List.map_cons, List.nil_append]
      exact hremove
  | cons a sets =>
    cases removes with
    | nil =>
      simp only [List.isEmpty_cons, List.isEmpty_nil, Bool.false_eq_true, if_false, if_true,
        List.map_nil, List.map_cons, List.append_nil]
      exact hset
    | cons r removes =>
      simp only [List.isEmpty_cons, Bool.false_eq_true, if_false, hnonempty, List.map_cons]
      have hblank : lex alphabet " " = [] := rfl
      rw [String.append_assoc, lex_append_append ⟨' ', rfl, rfl⟩ ⟨' ', rfl, rfl⟩, hset, hremove]
      simp [hblank]

theorem AssignText.lex_ne_nil {a : List String × (Attributes → Option AttributeValue)}
    (h : AssignText σ s a) : lex alphabet s ≠ [] := by
  obtain ⟨p, sv, hparse, -⟩ := h
  intro hnil
  have hnone := hparse [] rfl
  rw [hnil] at hnone
  cases hnone

theorem PathText.lex_ne_nil (h : PathText σ s path) : lex alphabet s ≠ [] := by
  obtain ⟨p, hp, hnames, hlex, hpath⟩ := h
  intro hnil
  have hparse := parsePath_pathTokens hp hnames [] rfl
  rw [List.append_nil, ← hlex, hnil] at hparse
  cases hparse

/-- The assignments behind their texts. -/
theorem exists_assignments {sets : List String}
    {assigns : List (List String × (Attributes → Option AttributeValue))}
    (h : List.Forall₂ (AssignText σ) sets assigns) : ∃ us : List (Path × SetValue),
      List.Forall₂ (fun ts u => ∀ rest, expect (.punct '+') rest = none →
        parseAssignment (ts ++ rest) = some (u, rest)) (sets.map (lex alphabet)) us ∧
      List.Forall₂ (fun u a => σ.resolve u.1 = some a.1 ∧ ∀ item, u.2.eval σ item = a.2 item)
        us assigns := by
  induction h with
  | nil => exact ⟨[], .nil, .nil⟩
  | cons ha _ ih =>
    obtain ⟨p, sv, hparse, hpath, heval⟩ := ha
    obtain ⟨us, hparses, hmeanings⟩ := ih
    exact ⟨(p, sv) :: us, .cons hparse hparses, .cons ⟨hpath, heval⟩ hmeanings⟩

/-- The paths behind their texts. -/
theorem exists_paths {removes : List String} {paths : List (List String)}
    (h : List.Forall₂ (PathText σ) removes paths) : ∃ ps : List Path,
      List.Forall₂ (fun ts p => ∀ rest, expect (.punct '.') rest = none →
        parsePath (ts ++ rest) = some (p, rest)) (removes.map (lex alphabet)) ps ∧
      ps.mapM σ.resolve = some paths := by
  induction h with
  | nil => exact ⟨[], .nil, rfl⟩
  | cons hpath _ ih =>
    obtain ⟨p, hp, hnames, hlex, hresolve⟩ := hpath
    obtain ⟨ps, hparses, hresolves⟩ := ih
    refine ⟨p :: ps, .cons ?_ hparses, by simp [hresolve, hresolves]⟩
    intro rest hrest
    rw [hlex, parsePath_pathTokens hp hnames rest hrest]

theorem mapM_assignments {us : List (Path × SetValue)}
    {assigns : List (List String × (Attributes → Option AttributeValue))}
    {assigned : List (List String × AttributeValue)}
    (h : List.Forall₂ (fun u a => σ.resolve u.1 = some a.1 ∧ ∀ item, u.2.eval σ item = a.2 item)
      us assigns)
    (h' : List.Forall₂ (fun a x => a.1 = x.1 ∧ a.2 item = some x.2) assigns assigned) :
    us.mapM (fun u => do some (← σ.resolve u.1, ← u.2.eval σ item)) = some assigned := by
  induction h generalizing assigned with
  | nil =>
    cases h'
    rfl
  | cons hu _ ih =>
    cases h' with
    | cons hx hrest =>
      rw [List.mapM_cons, ih hrest]
      simp [hu.1, hu.2, hx.1, hx.2]

/-- What follows the `SET` clause is the `REMOVE` clause or nothing. -/
theorem expect_clauseTokens {t : Token} {tss : List (List Token)} (ht : t ≠ .word "REMOVE") :
    expect t (clauseTokens "REMOVE" tss) = none := by
  unfold clauseTokens
  split
  · rfl
  · rw [expect, if_neg (Ne.symm ht)]

/-- An update expression of such texts parses; it assigns what they compute on the item and
then removes the other paths. -/
theorem parseUpdate_updateText {sets removes : List String}
    {assigns : List (List String × (Attributes → Option AttributeValue))}
    {paths : List (List String)} (hsets : List.Forall₂ (AssignText σ) sets assigns)
    (hremoves : List.Forall₂ (PathText σ) removes paths) (hne : sets ≠ [] ∨ removes ≠ []) :
    ∃ u, parseUpdate (updateText sets removes) = some u ∧ ∀ item assigned,
      List.Forall₂ (fun a x => a.1 = x.1 ∧ a.2 item = some x.2) assigns assigned →
      (assigned.map Prod.fst ++ paths).Pairwise Apart →
      u.apply σ item = (assigned.foldlM (fun item s => setPath s.2 item s.1) item).bind
        (fun item => paths.foldlM removePath item) := by
  obtain ⟨us, hparses, hmeanings⟩ := exists_assignments hsets
  obtain ⟨ps, hparses', hresolves⟩ := exists_paths hremoves
  have hset : parseClause "SET" parseAssignment
      (clauseTokens "SET" (sets.map (lex alphabet)) ++
        clauseTokens "REMOVE" (removes.map (lex alphabet))) =
      some (us, clauseTokens "REMOVE" (removes.map (lex alphabet))) :=
    parseClause_clauseTokens (lex_ne_nil_of_mem (fun _ _ ha => ha.lex_ne_nil) hsets)
      (fun _ => rfl) hparses
      (expect_clauseTokens (by simp)) (expect_clauseTokens (by simp))
      (expect_clauseTokens (by decide))
  have hremove : parseClause "REMOVE" parsePath
      (clauseTokens "REMOVE" (removes.map (lex alphabet)) ++ []) = some (ps, []) :=
    parseClause_clauseTokens (lex_ne_nil_of_mem (fun _ _ hp => hp.lex_ne_nil) hremoves)
      (fun _ => rfl) hparses' rfl rfl rfl
  rw [List.append_nil] at hremove
  have hsome : ¬ (us = [] ∧ ps = []) := by
    rintro ⟨rfl, rfl⟩
    have hlen := hparses.length_eq
    have hlen' := hparses'.length_eq
    simp only [List.length_map, List.length_nil, List.length_eq_zero_iff] at hlen hlen'
    exact hne.elim (absurd hlen) (absurd hlen')
  refine ⟨⟨us, ps⟩, ?_, ?_⟩
  · simp only [parseUpdate, lex_updateText, hset, hremove, if_neg hsome]
  · intro item assigned hassigned hapart
    rw [UpdateClauses.apply, mapM_assignments hmeanings hassigned]
    simp [hresolves, hapart]

end Cloud.DynamoDbReplicatedKv
