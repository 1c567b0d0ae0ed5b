import MtcCa.Metrics.Emf

/-! What one flush does for one counter series: the events have what the counter has grown by,
once, in the event of its labels; and the counter has then been seen
(`crates/metrics/src/emf.rs`). -/
namespace Metrics

variable {F : Type}

/-- A counter series: the name of the counter and its label, if it has one. -/
structure Series where
  name : String
  labels : Labels

def Metric.series (m : Metric F) : Series := ⟨m.name, m.labels⟩

/-- The count that a family has for labels. -/
def Family.count : Family F → Labels → ℕ
  | .counter value, [] => value
  | .labeledCounter label values, [p] =>
    if (ofLex p).1 = label then (values.get? (ofLex p).2).getD 0 else 0
  | _, _ => 0

theorem Family.count_labeledCounter (label v : String) (values : FiniteMap String ℕ) :
    (Family.labeledCounter label values : Family F).count [toLex (label, v)] =
      (values.get? v).getD 0 := if_pos rfl

/-- The value of the counter now. -/
def Registry.count (r : Registry F) (s : Series) : ℕ :=
  match r.families.get? s.name with
  | some family => family.count s.labels
  | none => 0

theorem Registry.count_of_get? {r : Registry F} {s : Series} {family : Family F}
    (h : r.families.get? s.name = some family) : r.count s = family.count s.labels := by
  rw [Registry.count, h]

/-- The value of the counter that the last flush saw. -/
def EmfEmitter.seen (e : EmfEmitter) (s : Series) : ℕ :=
  (e.lastCounters.get? (sampleKey s.name s.labels)).getD 0

def Sample.delta (x : Sample F) : ℕ :=
  match x.value with
  | .delta n => n
  | _ => 0

/-- The counts for a name among samples. -/
def deltaIn (name : String) (samples : List (Sample F)) : ℕ :=
  (samples.map (fun x => if x.name = name then x.delta else 0)).sum

/-- The count for a series that a line carries. -/
def EmfEvent.delta (s : Series) (line : EmfEvent F) : ℕ :=
  if line.labels = s.labels then deltaIn s.name line.samples else 0

/-- The count for a series in the groups of a flush. -/
def groupDelta (s : Series) (groups : Groups F) : ℕ :=
  deltaIn s.name ((groups.get? s.labels).getD [])

/-! ### Names -/

/-- What the metrics library documents of names: none has the separator of the sample keys, and
no label has an equals sign. -/
structure NameRules.Documented (rules : NameRules) : Prop where
  name : ∀ n, rules.validName n = true → '\x1f' ∉ n.toList
  label : ∀ l, rules.validLabel l = true → '=' ∉ l.toList

/-- A series of a registered counter: an accepted name, and at most one label, accepted too. -/
structure Series.Valid (rules : NameRules) (s : Series) : Prop where
  name : rules.validName s.name = true
  labels : s.labels = [] ∨ ∃ l v, s.labels = [toLex (l, v)] ∧ rules.validLabel l = true

theorem append_cons_inj {a a' x x' : List Char} {c : Char} (h : c ∉ a) (h' : c ∉ a')
    (heq : a ++ c :: x = a' ++ c :: x') : a = a' ∧ x = x' := by
  induction a generalizing a' with
  | nil =>
    cases a' with
    | nil => exact ⟨rfl, (List.cons.inj heq).2⟩
    | cons d a' =>
      obtain ⟨rfl, -⟩ := List.cons.inj heq
      exact (h' List.mem_cons_self).elim
  | cons d a ih =>
    cases a' with
    | nil =>
      obtain ⟨rfl, -⟩ := List.cons.inj heq
      exact (h List.mem_cons_self).elim
    | cons d' a' =>
      obtain ⟨rfl, hrest⟩ := List.cons.inj heq
      obtain ⟨rfl, rfl⟩ := ih (fun hc => h (List.mem_cons_of_mem d hc))
        (fun hc => h' (List.mem_cons_of_mem d hc)) hrest
      exact ⟨rfl, rfl⟩

theorem sampleKey_single_toList (name l v : String) :
    (sampleKey name [toLex (l, v)]).toList =
      name.toList ++ '\x1f' :: (l.toList ++ '=' :: v.toList) := by
  simp [sampleKey]

/-- No two counter series have one sample key. -/
theorem sampleKey_injective {rules : NameRules} (hrules : rules.Documented) {s t : Series}
    (hs : s.Valid rules) (ht : t.Valid rules)
    (h : sampleKey s.name s.labels = sampleKey t.name t.labels) : s = t := by
  obtain ⟨name, labels⟩ := s
  obtain ⟨name', labels'⟩ := t
  have hn := hrules.name _ hs.name
  have hn' := hrules.name _ ht.name
  have hlist := congrArg String.toList h
  rcases hs.labels with rfl | ⟨l, v, rfl, hl⟩ <;> rcases ht.labels with rfl | ⟨l', v', rfl, hl'⟩
  · cases (h : name = name')
    rfl
  · rw [sampleKey_single_toList] at hlist
    change name.toList = _ at hlist
    rw [hlist] at hn
    exact (hn (List.mem_append_right _ List.mem_cons_self)).elim
  · rw [sampleKey_single_toList] at hlist
    change _ = name'.toList at hlist
    rw [← hlist] at hn'
    exact (hn' (List.mem_append_right _ List.mem_cons_self)).elim
  · rw [sampleKey_single_toList, sampleKey_single_toList] at hlist
    obtain ⟨hname, hrest⟩ := append_cons_inj hn hn' hlist
    obtain ⟨hlabel, hvalue⟩ := append_cons_inj (hrules.label _ hl) (hrules.label _ hl') hrest
    rw [String.toList_inj] at hname hlabel hvalue
    dsimp only at hname
    rw [hname, hlabel, hvalue]

/-! ### The samples of a flush -/

open EmfEmitter

variable {rules : NameRules} {s : Series} {groups : Groups F} {labels : Labels}

theorem deltaIn_append (name : String) (xs ys : List (Sample F)) :
    deltaIn name (xs ++ ys) = deltaIn name xs + deltaIn name ys := by
  rw [deltaIn, List.map_append, List.sum_append]
  rfl

theorem deltaIn_singleton (name : String) (x : Sample F) :
    deltaIn name [x] = if x.name = name then x.delta else 0 := by
  rw [deltaIn, List.map_singleton, List.sum_singleton]

theorem groupDelta_push (x : Sample F) :
    groupDelta s (push groups labels x) =
      groupDelta s groups + if labels = s.labels ∧ x.name = s.name then x.delta else 0 := by
  unfold groupDelta push
  rw [FiniteMap.get?_insert]
  by_cases hl : s.labels = labels
  · subst hl
    rw [if_pos rfl, Option.getD_some, deltaIn_append, deltaIn_singleton]
    simp only [true_and]
  · rw [if_neg hl, if_neg (fun h => hl h.1.symm), Nat.add_zero]

/-- What is not a counter's sample adds nothing. -/
theorem groupDelta_push_of_delta_eq_zero {x : Sample F} (h : x.delta = 0) :
    groupDelta s (push groups labels x) = groupDelta s groups := by
  rw [groupDelta_push, h, ite_self, Nat.add_zero]

theorem groupDelta_foldl_addRaw (raws : List (String × List F)) :
    groupDelta s (raws.foldl addRaw groups) = groupDelta s groups := by
  induction raws generalizing groups with
  | nil => rfl
  | cons raw raws ih =>
    rw [List.foldl_cons, ih]
    unfold addRaw
    split
    · rfl
    · exact groupDelta_push_of_delta_eq_zero rfl

/-- The reading of a counter. -/
def Metric.IsCounter (m : Metric F) (n : ℕ) : Prop := m.value = .counter n

/-- Readings whose labels are in order, and whose counters have keys of their own. -/
structure Gathered (rules : NameRules) (ms : List (Metric F)) : Prop where
  valid : ∀ m ∈ ms, m.series.Valid rules
  distinct : ms.Pairwise (fun m m' => m.series ≠ m'.series)

theorem Gathered.tail {m : Metric F} {ms : List (Metric F)} (h : Gathered rules (m :: ms)) :
    Gathered rules ms :=
  ⟨fun m' hm' => h.valid m' (List.mem_cons_of_mem m hm'), (List.pairwise_cons.mp h.distinct).2⟩

theorem Series.Valid.insertionSort_eq (h : s.Valid rules) :
    s.labels.insertionSort (· ≤ ·) = s.labels := by
  rcases h.labels with hl | ⟨l, v, hl, -⟩
  · rw [hl]
    rfl
  · rw [hl]
    rfl

/-- The value that was seen for a series. -/
def seenIn (last : FiniteMap String ℕ) (s : Series) : ℕ :=
  (last.get? (sampleKey s.name s.labels)).getD 0

theorem addMetric_counter {acc : FiniteMap String ℕ × Groups F} {m : Metric F} {n : ℕ}
    (hm : m.series.Valid rules) (hn : m.IsCounter n) :
    addMetric acc m = (acc.1.insert (sampleKey m.name m.labels) n,
      push acc.2 m.labels ⟨m.name, unitFor m.name, .delta (n - seenIn acc.1 m.series)⟩) := by
  have hsort : m.labels.insertionSort (· ≤ ·) = m.labels := hm.insertionSort_eq
  have hvalue : m.value = .counter n := hn
  simp only [addMetric, hvalue, hsort]
  rfl

/-- A reading of the series itself. -/
theorem addMetric_self (acc : FiniteMap String ℕ × Groups F) {m : Metric F} {n : ℕ}
    (hm : m.series.Valid rules) (hn : m.IsCounter n) (hs : m.series = s) :
    seenIn (addMetric acc m).1 s = n ∧
      groupDelta s (addMetric acc m).2 = groupDelta s acc.2 + (n - seenIn acc.1 s) := by
  subst hs
  rw [addMetric_counter hm hn]
  constructor
  · change (FiniteMap.get? _ (sampleKey m.name m.labels)).getD 0 = n
    rw [FiniteMap.get?_insert_self, Option.getD_some]
  · rw [groupDelta_push, if_pos ⟨rfl, rfl⟩]
    rfl

/-- A reading of another series, or of no counter. -/
theorem addMetric_other (acc : FiniteMap String ℕ × Groups F) {m : Metric F}
    (hrules : rules.Documented) (hs : s.Valid rules) (hm : m.series.Valid rules)
    (hne : m.series = s → ∀ n, ¬ m.IsCounter n) :
    seenIn (addMetric acc m).1 s = seenIn acc.1 s ∧
      groupDelta s (addMetric acc m).2 = groupDelta s acc.2 := by
  cases hvalue : m.value with
  | counter n =>
    have hn : m.IsCounter n := hvalue
    have hseries : m.series ≠ s := fun h => hne h n hn
    have hkey : sampleKey s.name s.labels ≠ sampleKey m.name m.labels := fun hkey =>
      hseries (sampleKey_injective hrules hs hm hkey).symm
    rw [addMetric_counter hm hn]
    constructor
    · unfold seenIn
      rw [FiniteMap.get?_insert_ne hkey]
    · rw [groupDelta_push, if_neg, Nat.add_zero]
      rintro ⟨hlabels, hname⟩
      exact hseries (by cases s; cases hlabels; cases hname; rfl)
  | gauge x =>
    have hadd : addMetric acc m = (acc.1, push acc.2 (m.labels.insertionSort (· ≤ ·))
        ⟨m.name, unitFor m.name, .number x⟩) := by
      simp only [addMetric, hvalue]
    rw [hadd]
    exact ⟨rfl, groupDelta_push_of_delta_eq_zero rfl⟩

/-- Over all readings: the series is seen once, with its value, and its sample is what it has
grown by; without a reading of it nothing changes. -/
theorem foldl_addMetric (hrules : rules.Documented) (hs : s.Valid rules) {ms : List (Metric F)}
    (h : Gathered rules ms) (acc : FiniteMap String ℕ × Groups F) :
    (∀ m ∈ ms, ∀ n, m.series = s → m.IsCounter n →
      seenIn (ms.foldl addMetric acc).1 s = n ∧
        groupDelta s (ms.foldl addMetric acc).2 = groupDelta s acc.2 + (n - seenIn acc.1 s)) ∧
    ((∀ m ∈ ms, m.series = s → ∀ n, ¬ m.IsCounter n) →
      seenIn (ms.foldl addMetric acc).1 s = seenIn acc.1 s ∧
        groupDelta s (ms.foldl addMetric acc).2 = groupDelta s acc.2) := by
  induction ms generalizing acc with
  | nil => exact ⟨fun m hm => (List.not_mem_nil hm).elim, fun _ => ⟨rfl, rfl⟩⟩
  | cons m ms ih =>
    obtain ⟨hself, hnone⟩ := ih h.tail (addMetric acc m)
    have hm := h.valid m List.mem_cons_self
    have hdistinct := (List.pairwise_cons.mp h.distinct).1
    rw [List.foldl_cons]
    constructor
    · intro m' hm' n hseries hn
      rcases List.mem_cons.mp hm' with rfl | hm'
      · obtain ⟨hseen, hdelta⟩ := addMetric_self acc hm hn hseries
        have hrest := hnone (fun m'' hm'' hs'' =>
          (hdistinct m'' hm'' (hseries.trans hs''.symm)).elim)
        exact ⟨hrest.1.trans hseen, hrest.2.trans hdelta⟩
      · obtain ⟨hseen, hdelta⟩ := addMetric_other acc hrules hs hm
          (fun hms => (hdistinct m' hm' (hms.trans hseries.symm)).elim)
        have hrest := hself m' hm' n hseries hn
        rw [hseen, hdelta] at hrest
        exact hrest
    · intro hno
      obtain ⟨hseen, hdelta⟩ := addMetric_other acc hrules hs hm
        (hno m List.mem_cons_self)
      have hrest := hnone (fun m' hm' => hno m' (List.mem_cons_of_mem m hm'))
      exact ⟨hrest.1.trans hseen, hrest.2.trans hdelta⟩

/-! ### What a registry gathers -/

/-- The names and the labels of the families are accepted ones. -/
def Registry.Accepted (rules : NameRules) (r : Registry F) : Prop :=
  ∀ name family, r.families.get? name = some family → rules.validName name = true ∧
    ∀ label values, family = .labeledCounter label values → rules.validLabel label = true

variable {r : Registry F}

theorem Family.name_of_mem {family : Family F} {name : String} {m : Metric F}
    (h : m ∈ family.metrics name) : m.name = name := by
  cases family with
  | counter value | gauge value =>
    rw [List.mem_singleton.mp h]
  | labeledCounter label values =>
    obtain ⟨p, -, rfl⟩ := List.mem_map.mp h
    rfl
  | histogram => cases h

theorem mem_gather {m : Metric F} : m ∈ r.gather ↔
    ∃ family, r.families.get? m.name = some family ∧ m ∈ family.metrics m.name := by
  rw [Registry.gather, List.mem_flatMap]
  constructor
  · rintro ⟨⟨name, family⟩, hp, hm⟩
    cases Family.name_of_mem hm
    exact ⟨family, FiniteMap.mem_toList.mp hp, hm⟩
  · rintro ⟨family, hfamily, hm⟩
    exact ⟨(m.name, family), FiniteMap.mem_toList.mpr hfamily, hm⟩

theorem gathered_gather (h : r.Accepted rules) : Gathered rules r.gather where
  valid := by
    intro m hm
    obtain ⟨family, hfamily, hm⟩ := mem_gather.mp hm
    obtain ⟨hname, hlabel⟩ := h _ _ hfamily
    refine ⟨hname, ?_⟩
    cases family with
    | counter value | gauge value =>
      left
      rw [List.mem_singleton.mp hm]
      rfl
    | labeledCounter label values =>
      obtain ⟨p, -, hp⟩ := List.mem_map.mp hm
      right
      refine ⟨label, p.1, ?_, hlabel label values rfl⟩
      rw [← hp]
      rfl
    | histogram => cases hm
  distinct := by
    rw [Registry.gather, List.pairwise_flatMap]
    constructor
    · rintro ⟨name, family⟩ -
      cases family with
      | counter value | gauge value => exact List.pairwise_singleton _ _
      | labeledCounter label values =>
        apply List.pairwise_map.mpr
        apply FiniteMap.toList_sorted.imp
        intro p q hlt heq
        have hlabels := (Series.mk.inj heq).2
        have hpair := toLex.injective (List.cons.inj hlabels).1
        exact hlt.ne (Prod.mk.inj hpair).2
      | histogram => exact List.Pairwise.nil
    · apply FiniteMap.toList_sorted.imp
      intro p q hlt m hm m' hm' heq
      have hname : m.name = m'.name := (Series.mk.inj heq).1
      rw [Family.name_of_mem hm, Family.name_of_mem hm'] at hname
      exact hlt.ne hname

theorem eq_count_of_mem_gather {m : Metric F} {n : ℕ} (hm : m ∈ r.gather) (hn : m.IsCounter n) :
    n = r.count m.series := by
  obtain ⟨family, hfamily, hm⟩ := mem_gather.mp hm
  rw [Registry.count_of_get? (s := m.series) hfamily]
  change n = family.count m.labels
  cases family with
  | counter value =>
    rw [List.mem_singleton.mp hm] at hn ⊢
    cases hn
    rfl
  | labeledCounter label values =>
    obtain ⟨p, hp, heq⟩ := List.mem_map.mp hm
    have hlabels : m.labels = [toLex (label, p.1)] := by rw [← heq]
    have hvalue : m.value = .counter p.2 := by rw [← heq]
    have hpn : n = p.2 := MetricValue.counter.inj (hn.symm.trans hvalue)
    have hget := FiniteMap.mem_toList.mp hp
    rw [hpn, hlabels, Family.count_labeledCounter, hget, Option.getD_some]
  | gauge value =>
    rw [List.mem_singleton.mp hm] at hn
    cases hn
  | histogram => cases hm

/-- A counter that has counted anything is gathered. -/
theorem exists_mem_gather (h : r.count s ≠ 0) :
    ∃ m ∈ r.gather, m.series = s ∧ m.IsCounter (r.count s) := by
  cases hfamily : r.families.get? s.name with
  | none =>
    rw [Registry.count, hfamily] at h
    exact (h rfl).elim
  | some family =>
    rw [Registry.count_of_get? hfamily] at h ⊢
    have hmem {m : Metric F} (hname : m.name = s.name) (hm : m ∈ family.metrics s.name) :
        m ∈ r.gather := mem_gather.mpr ⟨family, by rw [hname, hfamily], by rw [hname]; exact hm⟩
    obtain ⟨name, labels⟩ := s
    change family.count labels ≠ 0 at h
    change ∃ m ∈ r.gather, m.series = ⟨name, labels⟩ ∧ m.IsCounter (family.count labels)
    unfold Family.count at h ⊢
    split at h
    · next value =>
      exact ⟨⟨name, [], .counter value⟩, hmem rfl (List.mem_singleton_self _), rfl, rfl⟩
    · next label values p =>
      split at h
      · next hlabel =>
        rw [if_pos hlabel]
        cases hget : values.get? (ofLex p).2 with
        | none =>
          rw [hget] at h
          exact (h rfl).elim
        | some n =>
          refine ⟨⟨name, [toLex (label, (ofLex p).2)], .counter n⟩, hmem rfl
            (List.mem_map.mpr ⟨((ofLex p).2, n), FiniteMap.mem_toList.mpr hget, rfl⟩), ?_, rfl⟩
          subst hlabel
          rfl
      · exact (h rfl).elim
    · exact (h rfl).elim

/-! ### The lines of a flush -/

/-- The label sets that there are samples for. -/
def Registry.labelSets (r : Registry F) : List Labels :=
  r.gather.map (fun m => m.labels) ++
    (r.rawHistograms.toList.filter (fun p => ¬ p.2.isEmpty)).map (fun _ => [])

/-- The label set of every line of a flush, in order. -/
def Registry.lineLabels (r : Registry F) : List Labels :=
  FiniteMap.ascending r.labelSets.toFinset

theorem keys_addMetric {acc : FiniteMap String ℕ × Groups F} {m : Metric F}
    (hm : m.series.Valid rules) :
    (addMetric acc m).2.keys = insert m.labels acc.2.keys := by
  have hsort : m.labels.insertionSort (· ≤ ·) = m.labels := hm.insertionSort_eq
  cases hvalue : m.value <;> simp only [addMetric, hvalue, hsort] <;> rfl

theorem keys_foldl_addMetric {ms : List (Metric F)} (h : ∀ m ∈ ms, m.series.Valid rules)
    (acc : FiniteMap String ℕ × Groups F) :
    (ms.foldl addMetric acc).2.keys = acc.2.keys ∪ (ms.map (fun m => m.labels)).toFinset := by
  induction ms generalizing acc with
  | nil =>
    rw [List.map_nil, List.toFinset_nil, Finset.union_empty]
    rfl
  | cons m ms ih =>
    rw [List.foldl_cons, ih (fun m' hm' => h m' (List.mem_cons_of_mem m hm')),
      keys_addMetric (h m List.mem_cons_self), List.map_cons, List.toFinset_cons,
      Finset.insert_union, Finset.union_insert]

theorem keys_foldl_addRaw (raws : List (String × List F)) (groups : Groups F) :
    (raws.foldl addRaw groups).keys =
      groups.keys ∪
        ((raws.filter (fun p => ¬ p.2.isEmpty)).map (fun _ => ([] : Labels))).toFinset := by
  induction raws generalizing groups with
  | nil =>
    rw [List.filter_nil, List.map_nil, List.toFinset_nil, Finset.union_empty]
    rfl
  | cons raw raws ih =>
    rw [List.foldl_cons, ih]
    by_cases hempty : raw.2.isEmpty
    · rw [addRaw, if_pos hempty, List.filter_cons_of_neg (by simpa using hempty)]
    · have hkeys : (addRaw groups raw).keys = insert [] groups.keys := by
        rw [addRaw, if_neg hempty]
        rfl
      rw [hkeys, List.filter_cons_of_pos (by simpa using hempty), List.map_cons,
        List.toFinset_cons, Finset.insert_union, Finset.union_insert]

/-- Every group has a sample. -/
def Inhabited (groups : Groups F) : Prop := ∀ labels, groups.get? labels ≠ some []

theorem inhabited_push (h : Inhabited groups) (labels : Labels) (x : Sample F) :
    Inhabited (push groups labels x) := by
  intro labels' hget
  rw [push, FiniteMap.get?_insert] at hget
  split at hget
  · simp at hget
  · exact h labels' hget

theorem inhabited_foldl_addMetric (ms : List (Metric F)) {acc : FiniteMap String ℕ × Groups F}
    (h : Inhabited acc.2) : Inhabited (ms.foldl addMetric acc).2 := by
  induction ms generalizing acc with
  | nil => exact h
  | cons m ms ih =>
    apply ih
    cases hvalue : m.value with
    | counter n | gauge n =>
      simp only [addMetric, hvalue]
      exact inhabited_push h _ _

theorem inhabited_foldl_addRaw (raws : List (String × List F)) (h : Inhabited groups) :
    Inhabited (raws.foldl addRaw groups) := by
  induction raws generalizing groups with
  | nil => exact h
  | cons raw raws ih =>
    apply ih
    unfold addRaw
    split
    · exact h
    · exact inhabited_push h _ _

/-- The groups of a flush. -/
def flushGroups (e : EmfEmitter) (r : Registry F) : Groups F :=
  r.drain.1.foldl addRaw (r.gather.foldl addMetric (e.lastCounters, .empty)).2

theorem get?_of_mem_toList {p : Labels × List (Sample F)} (h : p ∈ groups.toList) :
    groups.get? p.1 = some p.2 := by
  convert FiniteMap.mem_toList.mp h

theorem flush_events (e : EmfEmitter) (r : Registry F) (timestamp : UInt64) :
    (e.flush r timestamp).1 = (flushGroups e r).toList.map
      (fun p => (e.flush r timestamp).2.1.buildEvent timestamp p.1 p.2) := by
  have hempty : Inhabited (.empty : Groups F) := by
    intro labels h
    rw [FiniteMap.get?_empty] at h
    cases h
  have hgroups : Inhabited (flushGroups e r) :=
    inhabited_foldl_addRaw _ (inhabited_foldl_addMetric _ hempty)
  have hfilter : (flushGroups e r).toList.filter (fun p => ¬ p.2.isEmpty) =
      (flushGroups e r).toList := by
    apply List.filter_eq_self.mpr
    intro p hp
    have hne : p.2 ≠ [] := fun hnil => hgroups p.1 (by rw [get?_of_mem_toList hp, hnil])
    simpa using hne
  change ((flushGroups e r).toList.filter (fun p => ¬ p.2.isEmpty)).map _ = _
  rw [hfilter]
  rfl

/-- There is one line for every label set, in order. -/
theorem labels_flush_events (h : r.Accepted rules) (e : EmfEmitter) (timestamp : UInt64) :
    (e.flush r timestamp).1.map (fun line => line.labels) = r.lineLabels := by
  rw [flush_events, List.map_map]
  change (flushGroups e r).toList.map Prod.fst = r.lineLabels
  have hkeys : (flushGroups e r).keys = r.labelSets.toFinset := by
    rw [flushGroups, keys_foldl_addRaw, keys_foldl_addMetric (gathered_gather h).valid,
      Registry.labelSets, List.toFinset_append]
    change ∅ ∪ _ ∪ _ = _
    rw [Finset.empty_union]
    rfl
  rw [FiniteMap.map_fst_toList, hkeys, Registry.lineLabels]

theorem lineLabels_nodup (r : Registry F) : r.lineLabels.Nodup := by
  rw [Registry.lineLabels, FiniteMap.ascending_eq_sort]
  exact Finset.sort_nodup _ _

/-- What is seen after a flush, and what its events carry for the series in all. -/
theorem flush_series (hrules : rules.Documented) (hs : s.Valid rules) (h : r.Accepted rules)
    (e : EmfEmitter) (timestamp : UInt64) (hle : e.seen s ≤ r.count s) :
    (e.flush r timestamp).2.1.seen s = r.count s ∧
      groupDelta s (flushGroups e r) = r.count s - e.seen s ∧
      (r.count s - e.seen s ≠ 0 → s.labels ∈ r.lineLabels) := by
  have hgathered := gathered_gather h
  obtain ⟨hself, hnone⟩ := foldl_addMetric hrules hs hgathered
    (e.lastCounters, (.empty : Groups F))
  have hempty : groupDelta s (.empty : Groups F) = 0 := by
    unfold groupDelta
    rw [FiniteMap.get?_empty]
    rfl
  have hgroups : groupDelta s (flushGroups e r) =
      groupDelta s (r.gather.foldl addMetric (e.lastCounters, .empty)).2 :=
    groupDelta_foldl_addRaw _
  rw [hgroups]
  change seenIn (r.gather.foldl addMetric (e.lastCounters, (.empty : Groups F))).1 s = _ ∧ _
  by_cases hex : ∃ m ∈ r.gather, m.series = s ∧ m.IsCounter (r.count s)
  · obtain ⟨m, hm, hseries, hn⟩ := hex
    obtain ⟨hseen, hdelta⟩ := hself m hm (r.count s) hseries hn
    refine ⟨hseen, ?_, ?_⟩
    · rw [hdelta, hempty, Nat.zero_add]
      rfl
    · intro _
      rw [Registry.lineLabels, FiniteMap.ascending_eq_sort, Finset.mem_sort, List.mem_toFinset,
        Registry.labelSets, List.mem_append]
      exact Or.inl (List.mem_map.mpr ⟨m, hm, congrArg Series.labels hseries⟩)
  · have hzero : r.count s = 0 := by
      by_contra hne
      exact hex (exists_mem_gather hne)
    have hseen₀ : e.seen s = 0 := Nat.le_zero.mp (hle.trans_eq hzero)
    have hno : ∀ m ∈ r.gather, m.series = s → ∀ n, ¬ m.IsCounter n := by
      intro m hm hseries n hn
      have hcount := eq_count_of_mem_gather hm hn
      rw [hseries] at hcount
      exact hex ⟨m, hm, hseries, hcount ▸ hn⟩
    obtain ⟨hseen, hdelta⟩ := hnone hno
    have hseen' : seenIn e.lastCounters s = 0 := hseen₀
    rw [hseen, hdelta, hempty, hzero, hseen', hseen₀]
    exact ⟨rfl, rfl, fun hne => (hne rfl).elim⟩

/-! ### The lines that are written -/

/-- The count for a series over lines. -/
def written (s : Series) (lines : List (EmfEvent F)) : ℕ :=
  (lines.map (fun line => line.delta s)).sum

theorem written_append (lines lines' : List (EmfEvent F)) :
    written s (lines ++ lines') = written s lines + written s lines' := by
  rw [written, List.map_append, List.sum_append]
  rfl

/-- Over lines of different label sets, the count is that of the one line of the series. -/
theorem written_eq {lines : List (EmfEvent F)}
    (hnodup : (lines.map (fun line => line.labels)).Nodup)
    (hget : ∀ line ∈ lines, groups.get? line.labels = some line.samples) :
    written s lines =
      if s.labels ∈ lines.map (fun line => line.labels) then groupDelta s groups else 0 := by
  induction lines with
  | nil => rfl
  | cons line lines ih =>
    obtain ⟨hnotMem, hnodup⟩ := List.nodup_cons.mp hnodup
    have hrest := ih hnodup (fun l hl => hget l (List.mem_cons_of_mem line hl))
    have hcons : written s (line :: lines) = line.delta s + written s lines := by
      rw [written, List.map_cons, List.sum_cons]
      rfl
    rw [hcons, hrest, EmfEvent.delta]
    by_cases hl : line.labels = s.labels
    · have hgroup : groupDelta s groups = deltaIn s.name line.samples := by
        rw [groupDelta, ← hl, hget line List.mem_cons_self, Option.getD_some]
      change line.labels ∉ _ at hnotMem
      rw [hl] at hnotMem
      rw [if_pos hl, if_neg hnotMem, List.map_cons, hl, if_pos List.mem_cons_self, hgroup,
        Nat.add_zero]
    · have hmem : s.labels ∈ (line :: lines).map (fun line => line.labels) ↔
          s.labels ∈ lines.map (fun line => line.labels) := by
        rw [List.map_cons, List.mem_cons, or_iff_right (Ne.symm hl)]
      rw [if_neg hl, Nat.zero_add]
      simp only [hmem]

/-- The events whose line is ended by its newline. -/
def ended (writer : ℕ → WriteResult) : ℕ → List (EmfEvent F) → List (EmfEvent F)
  | _, [] => []
  | n, event :: events =>
    if writer n = .complete then event :: ended writer (n + 1) events else []

/-- The complete lines of a flush are those that are ended, but for the first where the sink had
something after its last newline. -/
theorem complete_writeLines (writer : ℕ → WriteResult) (n : ℕ) (tail : Line F)
    (events : List (EmfEvent F)) :
    (writeLines writer n tail events).1.1.filterMap Line.event? =
      if tail = [] then ended writer n events else (ended writer n events).tail := by
  induction events generalizing n tail with
  | nil => simp [writeLines, ended]
  | cons event events ih =>
    cases hw : writer n with
    | jsonFails bytes reason | newlineFails reason => simp [writeLines, ended, hw]
    | complete =>
      have hlines : (writeLines writer n tail (event :: events)).1.1 =
          (tail ++ [.whole event]) :: (writeLines writer (n + 1) [] events).1.1 := by
        simp only [writeLines, hw]
      have hended : ended writer n (event :: events) = event :: ended writer (n + 1) events := by
        rw [ended, if_pos hw]
      have hrest := ih (n + 1) []
      rw [if_pos rfl] at hrest
      rw [hlines, hended, List.filterMap_cons, hrest]
      cases tail with
      | nil => rfl
      | cons piece tail => cases tail <;> simp [Line.event?]

theorem ended_isPrefixOf (writer : ℕ → WriteResult) (n : ℕ) (events : List (EmfEvent F)) :
    ended writer n events <+: events := by
  induction events generalizing n with
  | nil => exact List.prefix_refl _
  | cons event events ih =>
    unfold ended
    split
    · exact (List.cons_prefix_cons).mpr ⟨rfl, ih (n + 1)⟩
    · exact List.nil_prefix

/-- A line is ended when no line fails up to it. -/
theorem mem_ended (writer : ℕ → WriteResult) (n : ℕ) (events : List (EmfEvent F)) :
    s.labels ∈ (ended writer n events).map (fun line => line.labels) ↔
      s.labels ∈ events.map (fun line => line.labels) ∧
        ∀ k ≤ (events.map (fun line => line.labels)).idxOf s.labels,
          writer (n + k) = .complete := by
  induction events generalizing n with
  | nil => simp [ended]
  | cons event events ih =>
    have hfails (h : writer n ≠ .complete) (lines : List (EmfEvent F)) (hnil : lines = []) :
        s.labels ∈ lines.map (fun line => line.labels) ↔
          s.labels ∈ (event :: events).map (fun line => line.labels) ∧
            ∀ k ≤ ((event :: events).map (fun line => line.labels)).idxOf s.labels,
              writer (n + k) = .complete := by
      rw [hnil]
      refine iff_of_false List.not_mem_nil ?_
      rintro ⟨-, hall⟩
      exact h (hall 0 (Nat.zero_le _))
    cases hw : writer n with
    | jsonFails bytes reason | newlineFails reason =>
      apply hfails (by rw [hw]; simp)
      rw [ended, if_neg (by rw [hw]; simp)]
    | complete =>
      have hlines : ended writer n (event :: events) = event :: ended writer (n + 1) events := by
        rw [ended, if_pos hw]
      rw [hlines, List.map_cons, List.map_cons, List.mem_cons, List.mem_cons, ih]
      by_cases hl : event.labels = s.labels
      · have hidx : (event.labels :: events.map (fun line => line.labels)).idxOf s.labels = 0 := by
          rw [hl, List.idxOf_cons_self]
        rw [hidx]
        refine iff_of_true (Or.inl hl.symm) ⟨Or.inl hl.symm, ?_⟩
        intro k hk
        rw [Nat.le_zero.mp hk]
        exact hw
      · rw [List.idxOf_cons_ne _ hl, or_iff_right (Ne.symm hl), or_iff_right (Ne.symm hl)]
        apply and_congr_right
        intro _
        constructor
        · rintro hall (_ | k) hk
          · exact hw
          · rw [← Nat.add_assoc, Nat.add_right_comm]
            exact hall k (Nat.le_of_succ_le_succ hk)
        · intro hall k hk
          rw [Nat.add_assoc, Nat.add_comm 1 k]
          exact hall (k + 1) (Nat.succ_le_succ hk)

/-- Without a failure every line is ended. -/
theorem ended_of_ok {writer : ℕ → WriteResult} {n : ℕ} {tail : Line F}
    {events : List (EmfEvent F)} (h : (writeLines writer n tail events).2 = .ok ()) :
    ended writer n events = events := by
  induction events generalizing n tail with
  | nil => rfl
  | cons event events ih =>
    unfold writeLines at h
    cases hw : writer n with
    | complete =>
      simp only [hw] at h
      rw [ended, if_pos hw, ih h]
    | jsonFails bytes reason | newlineFails reason =>
      simp only [hw] at h
      cases h

/-- Among different label sets, those after the first are the ones found after the first. -/
theorem mem_tail_iff {labels : List Labels} {l : Labels} (h : labels.Nodup) :
    l ∈ labels.tail ↔ l ∈ labels ∧ labels.idxOf l ≠ 0 := by
  cases labels with
  | nil => simp
  | cons first rest =>
    obtain ⟨hnotMem, -⟩ := List.nodup_cons.mp h
    rw [List.tail_cons, List.mem_cons]
    by_cases hl : first = l
    · subst hl
      simp [hnotMem]
    · simp [List.idxOf_cons_ne _ hl, Ne.symm hl]

end Metrics
