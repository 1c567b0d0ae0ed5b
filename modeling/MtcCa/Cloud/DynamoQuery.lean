import MtcCa.Cloud.DynamoRefinement

/-! The prefix query on both backends: the ordered map filtered by rendered key, and a `Query` or
`Scan` whose condition speaks of the two parts of a key. -/
namespace Cloud

open Text

theorem Key.str_injective : Function.Injective Key.str := by
  rintro ⟨a⟩ ⟨b⟩ rfl
  rfl

instance : LinearOrder Key := LinearOrder.lift' Key.str Key.str_injective

/-- Membership does not depend on how equality of keys is decided. -/
theorem mem_toList_iff {κ ν : Type} [LinearOrder κ] [DecidableEq κ] {m : FiniteMap κ ν}
    {p : κ × ν} : p ∈ m.toList ↔ m.get? p.1 = some p.2 := by
  rw [FiniteMap.mem_toList]
  congr!

namespace MemoryReplicatedKv

/-- The items whose key starts with the prefix, in key order. -/
def query (items : Store) (keyPrefix : String) : List Item :=
  (items.toList.filter fun p => startsWith p.1.str keyPrefix).map fun p => ⟨p.1, p.2⟩

variable {items : Store} {keyPrefix : String}

theorem mem_query {item : Item} : item ∈ query items keyPrefix ↔
    items.get? item.key = some item.value ∧ startsWith item.key.str keyPrefix = true := by
  rw [query, List.mem_map]
  constructor
  · rintro ⟨p, hp, rfl⟩
    obtain ⟨hmem, hstart⟩ := List.mem_filter.mp hp
    exact ⟨mem_toList_iff.mp hmem, hstart⟩
  · rintro ⟨hget, hstart⟩
    exact ⟨(item.key, item.value), List.mem_filter.mpr ⟨mem_toList_iff.mpr hget, hstart⟩, rfl⟩

theorem query_sorted : (query items keyPrefix).Pairwise fun a b => a.key < b.key := by
  rw [query, List.pairwise_map]
  exact FiniteMap.toList_sorted.filter _

end MemoryReplicatedKv

namespace DynamoDbReplicatedKv

open Dynamo ExprBuilder

/-- One page of a reply, and where the next one starts. -/
structure Page where
  items : List Attributes
  lastEvaluatedKey : Option PrimaryKey

/-- The reads of the service, one page at a time: a `Query` by its key condition and a `Scan` by its
filter. -/
structure Reader where
  query : String → Substitution → Option PrimaryKey → Except Dynamo.Error Page
  scan : Option String → Substitution → Option PrimaryKey → Except Dynamo.Error Page

/-- Reads pages until one is the last, decoding every item. -/
def drain (fetch : Option PrimaryKey → Except Dynamo.Error Page) :
    ℕ → Option PrimaryKey → List Item → Option (Except CloudError (List Item))
  | 0, _, _ => none
  | fuel + 1, start, out =>
    match fetch start with
    | .error e => some (.error (ddbGenericError e))
    | .ok page =>
      match page.items.mapM decodeScannedItem with
      | .error e => some (.error e)
      | .ok items =>
        match page.lastEvaluatedKey with
        | none => some (.ok (out ++ items))
        | some k => drain fetch fuel (some k) (out ++ items)

/-- The key condition of a `Query` of one partition. -/
def partitionCondition (pk skPrefix : String) : StateM ExprBuilder String := do
  let pkAlias ← aliasName pkAttr
  let pkVal ← aliasValue (.s pk)
  if skPrefix.isEmpty then return pkAlias ++ " = " ++ pkVal
  else
    let skAlias ← aliasName skAttr
    let skVal ← aliasValue (.s skPrefix)
    return pkAlias ++ " = " ++ pkVal ++ (" AND begins_with(" ++ skAlias ++ ", " ++ skVal ++ ")")

/-- The filter of a `Scan` by the start of the partition key. -/
def scanFilter (pkPrefix : String) : StateM ExprBuilder String := do
  let pkAlias ← aliasName pkAttr
  let pkVal ← aliasValue (.s pkPrefix)
  return "begins_with(" ++ pkAlias ++ ", " ++ pkVal ++ ")"

variable (r : Reader) (fuel : ℕ)

def queryWithinPartition (pk skPrefix : String) : Option (Except CloudError (List Item)) :=
  let (condition, b) := partitionCondition pk skPrefix .default
  drain (r.query condition b.finish) fuel none []

def scan (pkPrefix : Option String) : Option (Except CloudError (List Item)) :=
  match pkPrefix with
  | none => drain (r.scan none ⟨none, none⟩) fuel none []
  | some pkPrefix =>
    let (filter, b) := scanFilter pkPrefix .default
    drain (r.scan (some filter) b.finish) fuel none []

def sortByKey (items : List Item) : List Item := items.insertionSort fun a b => a.key ≤ b.key

/-- All items whose key starts with the prefix, in key order; without fuel for every page there is
no answer. -/
def query (keyPrefix : String) : Option (Except CloudError (List Item)) :=
  let items :=
    match splitOnce keyPrefix '/' with
    | some (pk, skPrefix) => queryWithinPartition r fuel pk skPrefix
    | none => if keyPrefix.isEmpty then scan r fuel none else scan r fuel (some keyPrefix)
  items.map fun out => out.map sortByKey

variable {t : Table} {items : Store} {key : Key} {k : PrimaryKey} {attrs : Attributes}
  {pk skPrefix keyPrefix : String} {verdict : Attributes → Bool}
  {fetch : Option PrimaryKey → Except Dynamo.Error Page} {start : Option PrimaryKey}
  {pages : List (List Attributes)}

/-- The pages that a read delivers, each but the last naming where the next one starts. -/
inductive Delivers (fetch : Option PrimaryKey → Except Dynamo.Error Page) :
    Option PrimaryKey → List (List Attributes) → Prop where
  | last {start : Option PrimaryKey} {items : List Attributes}
      (h : fetch start = .ok ⟨items, none⟩) : Delivers fetch start [items]
  | next {start : Option PrimaryKey} {items : List Attributes} {k : PrimaryKey}
      {pages : List (List Attributes)} (h : fetch start = .ok ⟨items, some k⟩)
      (hrest : Delivers fetch (some k) pages) : Delivers fetch start (items :: pages)

/-- Over its pages a read delivers exactly the items that satisfy its condition, in any order. -/
structure Reader.Exact (r : Reader) (t : Table) : Prop where
  query : ∀ text σ verdict, (∀ item, evaluate (some text) σ item = .ok (verdict item)) →
    ∃ pages, Delivers (r.query text σ) none pages ∧
      pages.flatten.Perm ((t.toList.map Prod.snd).filter verdict)
  scan : ∀ text σ verdict, (∀ item, evaluate text σ item = .ok (verdict item)) →
    ∃ pages, Delivers (r.scan text σ) none pages ∧
      pages.flatten.Perm ((t.toList.map Prod.snd).filter verdict)

section prefixes

variable {α : Type} {c : α} {p p' s s' q : List α}

/-- A list without the separator starts a cut list when it starts the part before the cut. -/
theorem prefix_append_iff (hq : c ∉ q) : q <+: p ++ c :: s ↔ q <+: p := by
  induction q generalizing p with
  | nil => simp
  | cons a q ih =>
    rw [List.mem_cons, not_or] at hq
    obtain ⟨hne, hq⟩ := hq
    cases p with
    | nil => simp [List.cons_prefix_cons, Ne.symm hne]
    | cons b p => rw [List.cons_append, List.cons_prefix_cons, List.cons_prefix_cons, ih hq]

/-- A cut list starts another when their first parts agree and its second part starts the
other's. -/
theorem append_prefix_append_iff (hp : c ∉ p) (hp' : c ∉ p') :
    p' ++ c :: s' <+: p ++ c :: s ↔ p = p' ∧ s' <+: s := by
  induction p' generalizing p with
  | nil =>
    cases p with
    | nil => simp [List.cons_prefix_cons]
    | cons a p =>
      have hne : c ≠ a := List.ne_of_not_mem_cons hp
      simp [List.cons_prefix_cons, hne]
  | cons a p' ih =>
    rw [List.mem_cons, not_or] at hp'
    obtain ⟨hne, hp'⟩ := hp'
    cases p with
    | nil => simp [List.cons_prefix_cons, Ne.symm hne]
    | cons b p =>
      rw [List.cons_append, List.cons_append, List.cons_prefix_cons,
        ih (List.not_mem_of_not_mem_cons hp) hp', List.cons.injEq, eq_comm, and_assoc]

end prefixes

theorem startsWith_iff {s start : String} :
    startsWith s start = true ↔ start.toList <+: s.toList := List.isPrefixOf_iff_prefix

theorem splitOnce_notMem {s a b : String} {c : Char} (h : splitOnce s c = some (a, b)) :
    c ∉ a.toList := by
  unfold splitOnce at h
  split at h
  · cases h
  · cases h
    rw [String.toList_ofList]
    intro hc
    simpa using List.mem_takeWhile_imp hc

theorem notMem_of_splitOnce_eq_none {s : String} {c : Char} (h : splitOnce s c = none) :
    c ∉ s.toList := by
  unfold splitOnce at h
  split at h
  · next hdrop =>
    intro hc
    simpa using List.dropWhile_eq_nil_iff.mp hdrop c hc
  · cases h

theorem splitOnce_toList {s a b : String} {c : Char} (h : splitOnce s c = some (a, b)) :
    s.toList = a.toList ++ c :: b.toList := by
  have hwhole := splitOnce_eq h
  rw [← hwhole]
  simp

/-- The first part of an accepted key has no separator, and the key is its two parts around one. -/
theorem splitKey_toList (h : splitKey key = .ok k) :
    key.str.toList = k.pk.toList ++ '/' :: k.sk.toList ∧ '/' ∉ k.pk.toList := by
  unfold splitKey at h
  split at h
  · next pk sk hsplit =>
    split at h
    · cases h
      exact ⟨splitOnce_toList hsplit, splitOnce_notMem hsplit⟩
    · cases h
  · cases h

/-- Behind a prefix with a separator are the keys of one partition whose sort key goes on alike. -/
theorem startsWith_iff_of_splitOnce (hk : splitKey key = .ok k)
    (h : splitOnce keyPrefix '/' = some (pk, skPrefix)) :
    startsWith key.str keyPrefix = true ↔ k.pk = pk ∧ startsWith k.sk skPrefix = true := by
  obtain ⟨hkey, hpk⟩ := splitKey_toList hk
  rw [startsWith_iff, startsWith_iff, hkey, splitOnce_toList h,
    append_prefix_append_iff hpk (splitOnce_notMem h), String.toList_inj]

/-- A prefix without a separator is one of the partition key. -/
theorem startsWith_iff_of_splitOnce_eq_none (hk : splitKey key = .ok k)
    (h : splitOnce keyPrefix '/' = none) :
    startsWith key.str keyPrefix = true ↔ startsWith k.pk keyPrefix = true := by
  obtain ⟨hkey, -⟩ := splitKey_toList hk
  rw [startsWith_iff, startsWith_iff, hkey, prefix_append_iff (notMem_of_splitOnce_eq_none h)]

theorem mapM_eq_filterMap {l : List Attributes}
    (h : ∀ a ∈ l, ∃ i, decodeScannedItem a = .ok i) :
    l.mapM decodeScannedItem = .ok (l.filterMap fun a => (decodeScannedItem a).toOption) := by
  induction l with
  | nil => rfl
  | cons a l ih =>
    obtain ⟨⟨i, hi⟩, hrest⟩ := List.forall_mem_cons.mp h
    rw [List.mapM_cons, ih hrest, List.filterMap_cons, hi]
    rfl

/-- With fuel for every page the loop returns all items of the pages. -/
theorem drain_eq (h : Delivers fetch start pages)
    (hdecode : ∀ a ∈ pages.flatten, ∃ i, decodeScannedItem a = .ok i) {fuel : ℕ}
    (hfuel : pages.length ≤ fuel) (out : List Item) :
    drain fetch fuel start out = some (.ok (out ++
      pages.flatten.filterMap fun a => (decodeScannedItem a).toOption)) := by
  induction h generalizing fuel out with
  | last hfetch =>
    cases fuel with
    | zero => simp at hfuel
    | succ fuel =>
      rw [List.flatten_singleton] at hdecode ⊢
      simp only [drain, hfetch, mapM_eq_filterMap hdecode]
  | next hfetch hrest ih =>
    cases fuel with
    | zero => simp at hfuel
    | succ fuel =>
      rw [List.flatten_cons, List.forall_mem_append] at hdecode
      simp only [drain, hfetch, mapM_eq_filterMap hdecode.1]
      rw [ih hdecode.2 (Nat.le_of_succ_le_succ hfuel), List.flatten_cons, List.filterMap_append,
        List.append_assoc]

/-- What is read of an item of the table is the item of the memory. -/
theorem decode_entry (h : Represents t items) (ht : t.get? k = some attrs) :
    ∃ key v, splitKey key = .ok k ∧ items.get? key = some v ∧ Stored k attrs v ∧
      decodeScannedItem attrs = .ok ⟨key, v⟩ := by
  obtain ⟨key, hk⟩ := h.renders k (by rw [ht, Option.isSome_some])
  have hstored := h.stored hk
  rw [ht] at hstored
  generalize hheld : items.get? key = w at hstored
  cases hstored with
  | @some _ v hs =>
    refine ⟨key, v, hk, hheld, hs, ?_⟩
    have hpk : requiredStringAttr attrs pkAttr = .ok k.pk := by
      simp only [requiredStringAttr, hs.pk]
    have hsk : requiredStringAttr attrs skAttr = .ok k.sk := by
      simp only [requiredStringAttr, hs.sk]
    simp only [decodeScannedItem, hpk, hsk, Outcome.ok_bind]
    rw [decodeItemAttrs_of_stored hs, (splitKey_eq hk).1]

/-- A condition selects the keys with a prefix. -/
def Selects (keyPrefix : String) (verdict : Attributes → Bool) : Prop :=
  ∀ {key k attrs v}, splitKey key = .ok k → Stored k attrs v →
    (verdict attrs = true ↔ startsWith key.str keyPrefix = true)

theorem mem_selected (h : Represents t items) (hselects : Selects keyPrefix verdict) {item : Item} :
    item ∈ ((t.toList.map Prod.snd).filter verdict).filterMap
        (fun a => (decodeScannedItem a).toOption) ↔
      item ∈ MemoryReplicatedKv.query items keyPrefix := by
  rw [MemoryReplicatedKv.mem_query, List.mem_filterMap]
  constructor
  · rintro ⟨attrs, hattrs, hitem⟩
    obtain ⟨hmem, hverdict⟩ := List.mem_filter.mp hattrs
    obtain ⟨⟨k, _⟩, hp, rfl⟩ := List.mem_map.mp hmem
    obtain ⟨key, v, hk, hheld, hs, hdecode⟩ := decode_entry h (mem_toList_iff.mp hp)
    rw [hdecode] at hitem
    cases hitem
    exact ⟨hheld, (hselects hk hs).mp hverdict⟩
  · rintro ⟨hheld, hstart⟩
    obtain ⟨k, hk⟩ := h.splits item.key (by rw [hheld, Option.isSome_some])
    have hstored := h.stored hk
    rw [hheld] at hstored
    generalize ht : t.get? k = o at hstored
    cases hstored with
    | @some attrs _ hs =>
      obtain ⟨key, v, hk', hheld', -, hdecode⟩ := decode_entry h ht
      obtain rfl := splitKey_inj hk hk'
      obtain rfl := Option.some.inj (hheld.symm.trans hheld')
      refine ⟨attrs, List.mem_filter.mpr ⟨?_, (hselects hk hs).mpr hstart⟩, by rw [hdecode]; rfl⟩
      exact List.mem_map.mpr ⟨(k, attrs), mem_toList_iff.mpr ht, rfl⟩

/-- No two selected items have one key. -/
theorem selected_key_ne (h : Represents t items) :
    (((t.toList.map Prod.snd).filter verdict).filterMap
      (fun a => (decodeScannedItem a).toOption)).Pairwise (fun a b => a.key ≠ b.key) := by
  rw [List.pairwise_filterMap]
  refine List.Pairwise.filter _ ?_
  rw [List.pairwise_map]
  refine FiniteMap.toList_sorted.imp_of_mem ?_
  intro p q hp hq hlt a ha b hb heq
  obtain ⟨key, v, hk, -, -, hdecode⟩ := decode_entry h (mem_toList_iff.mp hp)
  obtain ⟨key', v', hk', -, -, hdecode'⟩ := decode_entry h (mem_toList_iff.mp hq)
  rw [hdecode] at ha
  rw [hdecode'] at hb
  cases ha
  cases hb
  simp only at heq
  subst heq
  exact absurd (Except.ok.inj (hk.symm.trans hk')) (ne_of_lt hlt)

/-- The selected items in key order are what the memory returns. -/
theorem sortByKey_eq (h : Represents t items) (hselects : Selects keyPrefix verdict)
    {l : List Attributes} (hl : l.Perm ((t.toList.map Prod.snd).filter verdict)) :
    sortByKey (l.filterMap fun a => (decodeScannedItem a).toOption) =
      MemoryReplicatedKv.query items keyPrefix := by
  have hperm : (sortByKey (l.filterMap fun a => (decodeScannedItem a).toOption)).Perm
      (((t.toList.map Prod.snd).filter verdict).filterMap
        fun a => (decodeScannedItem a).toOption) :=
    (List.perm_insertionSort _ _).trans (hl.filterMap _)
  refine FiniteMap.eq_of_sorted_of_mem_iff ?_ MemoryReplicatedKv.query_sorted fun item => ?_
  · have hne := (List.Perm.pairwise_iff (R := fun a b : Item => a.key ≠ b.key)
      (fun hab => Ne.symm hab) hperm).mpr (selected_key_ne h)
    have hle : (sortByKey (l.filterMap fun a => (decodeScannedItem a).toOption)).Pairwise
        (fun a b => a.key ≤ b.key) := List.pairwise_insertionSort _ _
    exact (hle.and hne).imp fun hab => lt_of_le_of_ne hab.1 hab.2
  · rw [hperm.mem_iff, mem_selected h hselects]

/-- A read that selects the keys with a prefix returns, in key order, what the memory returns. -/
theorem drain_sorted (h : Represents t items) (hselects : Selects keyPrefix verdict)
    (hread : ∃ pages, Delivers fetch none pages ∧
      pages.flatten.Perm ((t.toList.map Prod.snd).filter verdict)) :
    ∃ n, ∀ fuel, n ≤ fuel → (drain fetch fuel none []).map (fun out => out.map sortByKey) =
      some (.ok (MemoryReplicatedKv.query items keyPrefix)) := by
  obtain ⟨pages, hpages, hperm⟩ := hread
  have hdecode : ∀ a ∈ pages.flatten, ∃ i, decodeScannedItem a = .ok i := by
    intro a ha
    obtain ⟨⟨k, _⟩, hp, rfl⟩ :=
      List.mem_map.mp (List.mem_of_mem_filter (hperm.mem_iff.mp ha))
    obtain ⟨key, v, -, -, -, hdecode⟩ := decode_entry h (mem_toList_iff.mp hp)
    exact ⟨_, hdecode⟩
  refine ⟨pages.length, fun fuel hfuel => ?_⟩
  rw [drain_eq hpages hdecode hfuel, Option.map_some, List.nil_append, Except.map,
    sortByKey_eq h hselects hperm]

/-- What the key condition of a partition asks of an item. -/
def partitionSem (pk skPrefix : String) (item : Attributes) : Bool :=
  sameIfPresent (lookup item [pkAttr]) (some (.s pk)) &&
    (skPrefix.isEmpty || hasStart (lookup item [skAttr]) (some (.s skPrefix)))

theorem builds_partitionCondition (pk skPrefix : String) :
    Builds (partitionCondition pk skPrefix) (fun σ s => ∃ texts sems, s = join " AND " texts ∧
      texts ≠ [] ∧ List.Forall₂ (CondText 1 σ) texts sems ∧
        ∀ item, (sems.all fun sem => sem item) = partitionSem pk skPrefix item) := by
  refine builds_bind (builds_aliasName pkAttr) fun pkAlias =>
    builds_bind (builds_aliasValue (.s pk)) fun pkVal => ?_
  split
  · next hempty =>
    refine builds_pure fun σ hval hname => ?_
    have hequal := (hname.pathText.equal hval).mono (Nat.zero_le 1)
    exact ⟨[_], [_], rfl, by simp, .cons hequal .nil, fun item => by simp [partitionSem, hempty]⟩
  · next hne =>
    refine builds_bind (builds_aliasName skAttr) fun skAlias =>
      builds_bind (builds_aliasValue (.s skPrefix)) fun skVal => builds_pure ?_
    intro σ hstart hsk hval hname
    have hequal := (hname.pathText.equal hval).mono (Nat.zero_le 1)
    have hbegins := (hsk.pathText.beginsWith hstart).mono (Nat.zero_le 1)
    refine ⟨[_, _], [_, _], ?_, by simp, .cons hequal (.cons hbegins .nil), fun item => ?_⟩
    · have hkeyword : " AND begins_with(" = " AND " ++ "begins_with(" := rfl
      rw [join_cons (by simp), join, hkeyword]
      simp only [String.append_assoc]
    · simp [partitionSem, hne]

theorem evaluate_partitionCondition (pk skPrefix : String) (item : Attributes) :
    evaluate (some (partitionCondition pk skPrefix .default).1)
      (partitionCondition pk skPrefix .default).2.finish item =
        .ok (partitionSem pk skPrefix item) := by
  obtain ⟨texts, sems, htext, hne, hsems, hall⟩ := (builds_partitionCondition pk skPrefix).finish
  rw [htext, evaluate_join hsems hne (finish_valid _), hall]

/-- What the filter of a scan asks of an item. -/
def scanSem (pkPrefix : String) (item : Attributes) : Bool :=
  hasStart (lookup item [pkAttr]) (some (.s pkPrefix))

theorem builds_scanFilter (pkPrefix : String) :
    Builds (scanFilter pkPrefix) (fun σ s => CondText 1 σ s (scanSem pkPrefix)) := by
  refine builds_bind (builds_aliasName pkAttr) fun pkAlias =>
    builds_bind (builds_aliasValue (.s pkPrefix)) fun pkVal => builds_pure ?_
  intro σ hval hname
  exact (hname.pathText.beginsWith hval).mono (Nat.zero_le 1)

theorem evaluate_scanFilter (pkPrefix : String) (item : Attributes) :
    evaluate (some (scanFilter pkPrefix .default).1) (scanFilter pkPrefix .default).2.finish item =
      .ok (scanSem pkPrefix item) := by
  have htext := (builds_scanFilter pkPrefix).finish
  have hjoin := evaluate_join (.cons htext .nil) (by simp) (finish_valid _) item
  rw [join, List.all_cons, List.all_nil, Bool.and_true] at hjoin
  exact hjoin

/-- The exact partition key and the start of the sort key select a prefix with a separator. -/
theorem selects_partition (h : splitOnce keyPrefix '/' = some (pk, skPrefix)) :
    Selects keyPrefix (partitionSem pk skPrefix) := by
  intro key k attrs v hk hs
  rw [startsWith_iff_of_splitOnce hk h]
  simp only [partitionSem, lookup, hs.pk, hs.sk, sameIfPresent, AttributeValue.same, hasStart,
    Bool.and_eq_true, decide_eq_true_eq, Bool.or_eq_true]
  by_cases hempty : skPrefix = ""
  · subst hempty
    simp [startsWith_iff]
  · simp [hempty]

theorem selects_scan (h : splitOnce keyPrefix '/' = none) :
    Selects keyPrefix (scanSem keyPrefix) := by
  intro key k attrs v hk hs
  rw [startsWith_iff_of_splitOnce_eq_none hk h]
  simp only [scanSem, lookup, hs.pk, hasStart]

theorem selects_all (h : keyPrefix.isEmpty = true) : Selects keyPrefix fun _ => true := by
  intro key k attrs v hk hs
  rw [String.isEmpty_iff] at h
  simp [h, startsWith_iff]

/-- With enough fuel the query returns what the memory returns. -/
theorem exists_query_eq (hr : r.Exact t) (h : Represents t items) (keyPrefix : String) :
    ∃ n, ∀ fuel, n ≤ fuel → query r fuel keyPrefix =
      some (.ok (MemoryReplicatedKv.query items keyPrefix)) := by
  unfold query
  cases hsplit : splitOnce keyPrefix '/' with
  | some parts =>
    obtain ⟨pk, skPrefix⟩ := parts
    exact drain_sorted h (selects_partition hsplit)
      (hr.query _ _ _ (evaluate_partitionCondition pk skPrefix))
  | none =>
    by_cases hempty : keyPrefix.isEmpty = true
    · simp only [hempty, if_true]
      exact drain_sorted h (selects_all hempty) (hr.scan none ⟨none, none⟩ _ fun item => rfl)
    · simp only [hempty, Bool.false_eq_true, if_false]
      exact drain_sorted h (selects_scan hsplit)
        (hr.scan (some _) _ _ (evaluate_scanFilter keyPrefix))

/-- The prefix query of the table is that of the memory: the items whose key starts with the prefix,
each once, in ascending key order. Cutting a key loses nothing. -/
theorem query_matches_memory (hr : r.Exact t) (h : Represents t items) :
    (∀ keyPrefix, ∃ n, ∀ fuel, n ≤ fuel → query r fuel keyPrefix =
      some (.ok (MemoryReplicatedKv.query items keyPrefix))) ∧
    (∀ keyPrefix item, item ∈ MemoryReplicatedKv.query items keyPrefix ↔
      items.get? item.key = some item.value ∧ startsWith item.key.str keyPrefix = true) ∧
    (∀ keyPrefix, (MemoryReplicatedKv.query items keyPrefix).Pairwise fun a b => a.key < b.key) ∧
    ∀ key k, splitKey key = .ok k →
      renderKey k = key ∧ ∀ key', splitKey key' = .ok k → key' = key := by
  refine ⟨exists_query_eq r hr h, fun keyPrefix item => MemoryReplicatedKv.mem_query,
    fun keyPrefix => MemoryReplicatedKv.query_sorted, fun key k hk => ?_⟩
  exact ⟨(splitKey_eq hk).1, fun key' hk' => splitKey_inj hk' hk⟩

/-- A service that answers every read with one page. -/
def onePage (t : Table) (condition : Option String) (σ : Substitution) :
    Except Dynamo.Error Page :=
  .ok ⟨(t.toList.map Prod.snd).filter fun item =>
    match evaluate condition σ item with
    | .ok verdict => verdict
    | .error _ => false, none⟩

def onePageReader (t : Table) : Reader where
  query condition σ _ := onePage t (some condition) σ
  scan condition σ _ := onePage t condition σ

theorem exact_onePageReader (t : Table) : (onePageReader t).Exact t where
  query text σ verdict hverdict := by
    refine ⟨_, .last rfl, ?_⟩
    rw [List.flatten_singleton]
    simp only [hverdict, List.Perm.refl]
  scan text σ verdict hverdict := by
    refine ⟨_, .last rfl, ?_⟩
    rw [List.flatten_singleton]
    simp only [hverdict, List.Perm.refl]

theorem counter_query_matches :
    (∃ n, ∀ fuel, n ≤ fuel → query (onePageReader counterTable) fuel "log/n" =
      some (.ok (MemoryReplicatedKv.query counterStore "log/n"))) ∧
    renderKey counterKey = ⟨"log/next"⟩ := by
  obtain ⟨hquery, -, -, hsplit⟩ := query_matches_memory (onePageReader counterTable)
    (exact_onePageReader counterTable) represents_counter
  exact ⟨hquery "log/n", (hsplit _ _ splitKey_counter).1⟩

end DynamoDbReplicatedKv

end Cloud
