import MtcCa.Metrics.Flush

/-! Runs of increments and flushes: when the deltas on the written lines add up to the count
(`crates/metrics/src/emf.rs`, `crates/metrics/src/registry.rs`). -/
namespace Metrics

open EmfEmitter

variable {F : Type} {rules : NameRules} {s : Series}

/-- A registry with its exporter and the sinks it writes to: the lines that were ended in any of
them, and what stands in each after its last newline. -/
structure World (F : Type) where
  registry : Registry F
  emitter : EmfEmitter
  lines : List (Line F)
  tails : ℕ → Line F

/-- The events of the lines that were completely written. -/
def World.complete (w : World F) : List (EmfEvent F) := w.lines.filterMap Line.event?

/-- What a service does with its metrics. The writer of a flush to a sink may fail at any line. -/
inductive Action (F : Type) where
  | counter (name : String)
  | labeledCounter (name label : String)
  | gauge (name : String) (zero : F)
  | histogram (name : String)
  | incBy (name : String) (n : ℕ)
  | labeledIncBy (name label labelValue : String) (n : ℕ)
  | gaugeSet (name : String) (value : F)
  | observe (name : String) (value : F)
  | flushTo (sink : ℕ) (writer : ℕ → WriteResult) (timestamp : UInt64)

/-- The world with a changed registry. -/
def World.withRegistry (w : World F) (r : Registry F) : World F := { w with registry := r }

/-- One action, where it can be taken: a name is free, and a handle is of a registered metric. -/
def step (rules : NameRules) (w : World F) : Action F → Option (World F)
  | .counter name => (w.registry.counter rules name).map w.withRegistry
  | .labeledCounter name label =>
    (w.registry.labeledCounter rules name label).map w.withRegistry
  | .gauge name zero => (w.registry.gauge rules name zero).map w.withRegistry
  | .histogram name => (w.registry.histogram rules name).map w.withRegistry
  | .incBy name n => (w.registry.incBy name n).map w.withRegistry
  | .labeledIncBy name label labelValue n =>
    (w.registry.labeledIncBy name label labelValue n).map w.withRegistry
  | .gaugeSet name value => (w.registry.gaugeSet name value).map w.withRegistry
  | .observe name value => (w.registry.observe name value).map w.withRegistry
  | .flushTo sink writer timestamp =>
    let (((lines, tail), _), e, r) :=
      w.emitter.flushTo w.registry (w.tails sink) writer timestamp
    some ⟨r, e, w.lines ++ lines, Function.update w.tails sink tail⟩

def run (rules : NameRules) (w : World F) (actions : List (Action F)) : Option (World F) :=
  actions.foldlM (step rules) w

def World.new (e : EmfEmitter) : World F := ⟨.new, e, [], fun _ => []⟩

/-- What an action adds to the counter. -/
def Action.increment (s : Series) : Action F → ℕ
  | .incBy name n => if name = s.name ∧ s.labels = [] then n else 0
  | .labeledIncBy name label labelValue n =>
    if name = s.name ∧ s.labels = [toLex (label, labelValue)] then n else 0
  | _ => 0

/-- The increments of the counter that were recorded. -/
def increments (s : Series) (actions : List (Action F)) : ℕ :=
  (actions.map (Action.increment s)).sum

/-- The increments of the counter since the last flush. -/
def pending (s : Series) (actions : List (Action F)) : ℕ :=
  actions.foldl (fun n a =>
    match a with
    | .flushTo _ _ _ => 0
    | a => n + a.increment s) 0

/-- No line up to that of the series fails. -/
def Reaches (writer : ℕ → WriteResult) (r : Registry F) (s : Series) : Prop :=
  ∀ n ≤ r.lineLabels.idxOf s.labels, writer n = .complete

instance (writer : ℕ → WriteResult) (r : Registry F) (s : Series) :
    Decidable (Reaches writer r s) :=
  inferInstanceAs (Decidable (∀ n, n ≤ r.lineLabels.idxOf s.labels → writer n = .complete))

/-- The line of the series is not the first of a flush to a sink that has `tail` after its last
newline. -/
def StandsAlone (tail : Line F) (r : Registry F) (s : Series) : Prop :=
  r.lineLabels.idxOf s.labels = 0 → tail = []

instance (tail : Line F) (r : Registry F) (s : Series) : Decidable (StandsAlone tail r s) :=
  inferInstanceAs (Decidable (_ = 0 → tail = []))

/-- Every flush of the actions writes the line of the series, on a line of its own, or there was
nothing to report for it. -/
def NothingLost (rules : NameRules) (e : EmfEmitter) (s : Series) (actions : List (Action F)) :
    Prop :=
  ∀ before sink writer timestamp after,
    actions = before ++ .flushTo sink writer timestamp :: after →
    ∀ w, run rules (World.new e) before = some w →
      pending s before = 0 ∨
        Reaches writer w.registry s ∧ StandsAlone (w.tails sink) w.registry s

theorem run_concat {w : World F} (actions : List (Action F)) (a : Action F) :
    run rules w (actions ++ [a]) = (run rules w actions).bind (fun w => step rules w a) := by
  rw [run, List.foldlM_append]
  change (run rules w actions).bind (fun w => (step rules w a).bind some) = _
  simp only [Option.bind_fun_some]

theorem increments_concat (actions : List (Action F)) (a : Action F) :
    increments s (actions ++ [a]) = increments s actions + a.increment s := by
  rw [increments, List.map_append, List.sum_append, List.map_singleton, List.sum_singleton]
  rfl

/-! ### What an action does to the registry -/

variable {r r' : Registry F}

/-- One name is given a family, which counts so much more for the series. -/
structure Changed (rules : NameRules) (s : Series) (n : ℕ) (r r' : Registry F) : Prop where
  accepted : r.Accepted rules → r'.Accepted rules
  count : r'.count s = r.count s + n

theorem Changed.of_families_eq (h : r'.families = r.families) : Changed rules s 0 r r' where
  accepted := by
    intro hr name family hget
    rw [h] at hget
    exact hr name family hget
  count := by
    rw [Registry.count, Registry.count, h, Nat.add_zero]

/-- Setting the family of one name, where the name and the label are accepted. -/
theorem changed_insert {name : String} {family : Family F} {n : ℕ}
    (hname : r.Accepted rules → rules.validName name = true ∧
      ∀ label values, family = .labeledCounter label values → rules.validLabel label = true)
    (hcount : s.name = name → family.count s.labels = r.count s + n)
    (hother : s.name ≠ name → n = 0) :
    Changed rules s n r { r with families := r.families.insert name family } where
  accepted := by
    intro hr name' family' hget
    rw [FiniteMap.get?_insert] at hget
    split at hget
    · next heq =>
      cases hget
      rw [heq]
      exact hname hr
    · exact hr name' family' hget
  count := by
    by_cases hs : s.name = name
    · have hget : (r.families.insert name family).get? s.name = some family := by
        rw [hs, FiniteMap.get?_insert_self]
      rw [← hcount hs, Registry.count_of_get? hget]
    · rw [hother hs, Nat.add_zero, Registry.count, Registry.count, FiniteMap.get?_insert_ne hs]

theorem changed_register {name : String} {family : Family F}
    (hlabel : ∀ label values, family = .labeledCounter label values →
      rules.validLabel label = true)
    (hzero : ∀ labels, family.count labels = 0)
    (h : r.register rules name family = some r') : Changed rules s 0 r r' := by
  rw [Registry.register] at h
  split at h
  · next hfree =>
    cases h
    apply changed_insert
    · exact fun _ => ⟨hfree.1, hlabel⟩
    · rintro rfl
      rw [hzero, Registry.count, hfree.2]
    · exact fun _ => rfl
  · cases h

theorem changed_incBy {name : String} {n : ℕ} (h : r.incBy name n = some r') :
    Changed rules s (if name = s.name ∧ s.labels = [] then n else 0) r r' := by
  rw [Registry.incBy] at h
  split at h
  · next value hget =>
    cases h
    apply changed_insert
    · exact fun hr => ⟨(hr _ _ hget).1, fun _ _ hf => by cases hf⟩
    · rintro rfl
      rw [Registry.count_of_get? hget]
      cases hl : s.labels with
      | nil => simp [Family.count]
      | cons p ps => simp [Family.count]
    · intro hne
      rw [if_neg (fun h => hne h.1.symm)]
  · cases h

/-- Adding to the value of one label adds to the count of its series. -/
theorem Family.count_insert (label v : String) (values : FiniteMap String ℕ) (n : ℕ)
    (labels : Labels) :
    (Family.labeledCounter label (values.insert v ((values.get? v).getD 0 + n)) : Family F).count
        labels =
      (Family.labeledCounter label values : Family F).count labels +
        if labels = [toLex (label, v)] then n else 0 := by
  cases labels with
  | nil => rfl
  | cons p ps =>
    cases ps with
    | cons q qs =>
      rw [if_neg (by simp)]
      rfl
    | nil =>
      obtain ⟨l, v'⟩ := p
      change (if l = label then ((values.insert v _).get? v').getD 0 else 0) =
        (if l = label then (values.get? v').getD 0 else 0) +
          if [toLex (l, v')] = [toLex (label, v)] then n else 0
      by_cases hl : l = label
      · subst hl
        rw [if_pos rfl, if_pos rfl, FiniteMap.get?_insert]
        by_cases hv : v' = v
        · subst hv
          rw [if_pos rfl, if_pos rfl, Option.getD_some]
        · rw [if_neg hv, if_neg, Nat.add_zero]
          intro h
          exact hv (Prod.mk.inj (toLex.injective (List.cons.inj h).1)).2
      · rw [if_neg hl, if_neg hl, if_neg]
        intro h
        exact hl (Prod.mk.inj (toLex.injective (List.cons.inj h).1)).1

theorem Family.count_labeledCounter_empty (label : String) (labels : Labels) :
    (Family.labeledCounter label .empty : Family F).count labels = 0 := by
  unfold Family.count
  split
  · next heq => cases heq
  · next heq =>
    cases heq
    rw [FiniteMap.get?_empty, Option.getD_none, ite_self]
  · rfl

theorem changed_labeledCounter {name label : String}
    (h : r.labeledCounter rules name label = some r') : Changed rules s 0 r r' := by
  rw [Registry.labeledCounter] at h
  split at h
  · next hlabel =>
    apply changed_register ?_ (Family.count_labeledCounter_empty label) h
    rintro _ _ ⟨⟩
    exact hlabel
  · cases h

theorem changed_labeledIncBy {name label labelValue : String} {n : ℕ}
    (h : r.labeledIncBy name label labelValue n = some r') :
    Changed rules s (if name = s.name ∧ s.labels = [toLex (label, labelValue)] then n else 0)
      r r' := by
  rw [Registry.labeledIncBy] at h
  split at h
  · next label' values hget =>
    split at h
    · next heq =>
      subst heq
      cases h
      apply changed_insert
      · refine fun hr => ⟨(hr _ _ hget).1, ?_⟩
        rintro _ _ ⟨⟩
        exact (hr _ _ hget).2 label values rfl
      · rintro rfl
        rw [Registry.count_of_get? hget, Family.count_insert]
        simp only [true_and]
      · intro hne
        rw [if_neg (fun h => hne h.1.symm)]
    · cases h
  · cases h

theorem changed_gaugeSet {name : String} {value : F} (h : r.gaugeSet name value = some r') :
    Changed rules s 0 r r' := by
  rw [Registry.gaugeSet] at h
  split at h
  · next x hget =>
    cases h
    apply changed_insert
    · exact fun hr => ⟨(hr _ _ hget).1, fun _ _ hf => by cases hf⟩
    · rintro rfl
      rw [Registry.count_of_get? hget]
      rfl
    · exact fun _ => rfl
  · cases h

theorem changed_observe {name : String} {value : F} (h : r.observe name value = some r') :
    Changed rules s 0 r r' := by
  rw [Registry.observe] at h
  split at h
  · split at h <;> cases h <;> exact Changed.of_families_eq rfl
  · cases h

/-- An action other than a flush changes the registry only, and what the series counts by the
increment that it is. -/
theorem step_registry {w w' : World F} {a : Action F}
    (ha : ∀ sink writer ts, a ≠ .flushTo sink writer ts) (h : step rules w a = some w') :
    ∃ r', w' = w.withRegistry r' ∧ Changed rules s (a.increment s) w.registry r' := by
  cases a with
  | flushTo sink writer ts => exact (ha sink writer ts rfl).elim
  | counter name =>
    obtain ⟨r', hr, rfl⟩ := Option.map_eq_some_iff.mp h
    refine ⟨r', rfl, changed_register (fun _ _ hf => by cases hf) ?_ hr⟩
    intro labels
    cases labels <;> rfl
  | labeledCounter name label =>
    obtain ⟨r', hr, rfl⟩ := Option.map_eq_some_iff.mp h
    exact ⟨r', rfl, changed_labeledCounter hr⟩
  | gauge name zero =>
    obtain ⟨r', hr, rfl⟩ := Option.map_eq_some_iff.mp h
    exact ⟨r', rfl, changed_register (fun _ _ hf => by cases hf) (fun _ => rfl) hr⟩
  | histogram name =>
    obtain ⟨r', hr, rfl⟩ := Option.map_eq_some_iff.mp h
    obtain ⟨r₁, hr₁, heq⟩ := Option.bind_eq_some_iff.mp hr
    cases heq
    have hchanged : Changed rules s 0 w.registry r₁ :=
      changed_register (fun _ _ hf => by cases hf) (fun _ => rfl) hr₁
    exact ⟨_, rfl, hchanged.accepted, hchanged.count⟩
  | incBy name n =>
    obtain ⟨r', hr, rfl⟩ := Option.map_eq_some_iff.mp h
    exact ⟨r', rfl, changed_incBy hr⟩
  | labeledIncBy name label labelValue n =>
    obtain ⟨r', hr, rfl⟩ := Option.map_eq_some_iff.mp h
    exact ⟨r', rfl, changed_labeledIncBy hr⟩
  | gaugeSet name value =>
    obtain ⟨r', hr, rfl⟩ := Option.map_eq_some_iff.mp h
    exact ⟨r', rfl, changed_gaugeSet hr⟩
  | observe name value =>
    obtain ⟨r', hr, rfl⟩ := Option.map_eq_some_iff.mp h
    exact ⟨r', rfl, changed_observe hr⟩

/-- The lines that are ended come in the order of the flush, and a series finds its own where the
flush has it. -/
theorem idxOf_ended (hr : r.Accepted rules) (e : EmfEmitter) (writer : ℕ → WriteResult)
    (ts : UInt64)
    (hin : s.labels ∈ (ended writer 0 (e.flush r ts).1).map (fun line => line.labels)) :
    ((ended writer 0 (e.flush r ts).1).map (fun line => line.labels)).idxOf s.labels =
      r.lineLabels.idxOf s.labels := by
  obtain ⟨rest, hrest⟩ := (ended_isPrefixOf writer 0 (e.flush r ts).1).map (fun line => line.labels)
  rw [labels_flush_events hr e ts] at hrest
  rw [← hrest, List.idxOf_append_of_mem hin]

theorem get?_of_mem_ended {e : EmfEmitter} {writer : ℕ → WriteResult} {ts : UInt64}
    {line : EmfEvent F} (hline : line ∈ ended writer 0 (e.flush r ts).1) :
    (flushGroups e r).get? line.labels = some line.samples := by
  have hmem := (ended_isPrefixOf writer 0 (e.flush r ts).1).mem hline
  rw [flush_events] at hmem
  obtain ⟨p, hp, rfl⟩ := List.mem_map.mp hmem
  exact get?_of_mem_toList hp

/-- The lines that a flush completes carry the growth of the series, if its line is reached and
stands alone. -/
theorem written_writeLines (hr : r.Accepted rules) (e : EmfEmitter) (tail : Line F)
    (writer : ℕ → WriteResult) (ts : UInt64) :
    written s ((writeLines writer 0 tail (e.flush r ts).1).1.1.filterMap Line.event?) =
      if s.labels ∈ r.lineLabels ∧ Reaches writer r s ∧ StandsAlone tail r s then
        groupDelta s (flushGroups e r)
      else 0 := by
  have hlabels := labels_flush_events hr e ts
  have hmem := mem_ended (s := s) writer 0 (e.flush r ts).1
  rw [hlabels] at hmem
  simp only [Nat.zero_add] at hmem
  have hnodup : ((ended writer 0 (e.flush r ts).1).map (fun line => line.labels)).Nodup := by
    apply ((ended_isPrefixOf writer 0 (e.flush r ts).1).map (fun line => line.labels)).sublist.nodup
    rw [hlabels]
    exact lineLabels_nodup r
  have hidx := idxOf_ended (s := s) hr e writer ts
  rw [complete_writeLines]
  by_cases htail : tail = []
  · have halone : StandsAlone tail r s := fun _ => htail
    rw [if_pos htail, written_eq hnodup (fun line => get?_of_mem_ended)]
    simp only [hmem, halone, and_true]
    rfl
  · have hfirst : StandsAlone tail r s ↔ r.lineLabels.idxOf s.labels ≠ 0 :=
      ⟨fun h hzero => htail (h hzero), fun h hzero => absurd hzero h⟩
    rw [if_neg htail, written_eq (hnodup.sublist ((List.tail_sublist _).map _))
      (fun line hline => get?_of_mem_ended (List.mem_of_mem_tail hline))]
    have htailMem : s.labels ∈ (ended writer 0 (e.flush r ts).1).tail.map
        (fun line => line.labels) ↔
        s.labels ∈ r.lineLabels ∧ Reaches writer r s ∧ StandsAlone tail r s := by
      rw [List.map_tail, mem_tail_iff hnodup, hfirst, ← and_assoc]
      refine ⟨fun h => ⟨hmem.mp h.1, hidx h.1 ▸ h.2⟩, fun h => ?_⟩
      have hin := hmem.mpr h.1
      exact ⟨hin, (hidx hin).symm ▸ h.2⟩
    simp only [htailMem]

/-- A flush reports what the series has grown by, if its line is reached and stands alone. -/
theorem step_flushTo (hrules : rules.Documented) (hs : s.Valid rules) {w w' : World F} {sink : ℕ}
    {writer : ℕ → WriteResult} {ts : UInt64} (hr : w.registry.Accepted rules)
    (hle : w.emitter.seen s ≤ w.registry.count s)
    (h : step rules w (.flushTo sink writer ts) = some w') :
    w'.registry.families = w.registry.families ∧ w'.emitter.seen s = w.registry.count s ∧
      (Reaches writer w.registry s ∧ StandsAlone (w.tails sink) w.registry s →
        written s w'.complete =
          written s w.complete + (w.registry.count s - w.emitter.seen s)) ∧
      (¬ (Reaches writer w.registry s ∧ StandsAlone (w.tails sink) w.registry s) →
        written s w'.complete = written s w.complete) := by
  obtain ⟨hseen, hdelta, hmem⟩ := flush_series hrules hs hr w.emitter ts hle
  have hlines : w'.complete = w.complete ++ (writeLines writer 0 (w.tails sink)
      (w.emitter.flush w.registry ts).1).1.1.filterMap Line.event? := by
    cases h
    rw [World.complete, List.filterMap_append]
    rfl
  rw [hlines, written_append, written_writeLines hr, hdelta]
  refine ⟨by cases h; rfl, by cases h; exact hseen, ?_, ?_⟩
  · intro hreach
    by_cases hl : s.labels ∈ w.registry.lineLabels
    · rw [if_pos ⟨hl, hreach⟩]
    · have hzero : w.registry.count s - w.emitter.seen s = 0 := by
        by_contra hne
        exact hl (hmem hne)
      rw [hzero, ite_self]
  · intro hreach
    rw [if_neg (fun h => hreach h.2), Nat.add_zero]

/-! ### Runs -/

/-- What holds of the series after a run of actions. -/
structure Account (rules : NameRules) (e : EmfEmitter) (s : Series) (actions : List (Action F))
    (w : World F) : Prop where
  accepted : w.registry.Accepted rules
  counted : w.registry.count s = increments s actions
  seen : w.emitter.seen s + pending s actions = increments s actions
  written_le : written s w.complete ≤ w.emitter.seen s
  written_eq_iff : written s w.complete = w.emitter.seen s ↔ NothingLost rules e s actions

theorem pending_concat (actions : List (Action F)) {a : Action F}
    (ha : ∀ sink writer ts, a ≠ .flushTo sink writer ts) :
    pending s (actions ++ [a]) = pending s actions + a.increment s := by
  rw [pending, List.foldl_append]
  cases a with
  | flushTo sink writer ts => exact (ha sink writer ts rfl).elim
  | _ => rfl

theorem pending_concat_flushTo (actions : List (Action F)) (sink : ℕ) (writer : ℕ → WriteResult)
    (ts : UInt64) : pending s (actions ++ [.flushTo sink writer ts]) = 0 := by
  rw [pending, List.foldl_append]
  rfl

/-- What was lost up to a last action: that of the actions before, and of the last one. -/
theorem nothingLost_concat (e : EmfEmitter) (actions : List (Action F)) (a : Action F) :
    NothingLost rules e s (actions ++ [a]) ↔ NothingLost rules e s actions ∧
      ∀ sink writer ts, a = .flushTo sink writer ts →
        ∀ w, run rules (World.new e) actions = some w →
          pending s actions = 0 ∨
            Reaches writer w.registry s ∧ StandsAlone (w.tails sink) w.registry s := by
  constructor
  · intro h
    constructor
    · rintro before sink writer ts after rfl
      exact h before sink writer ts (after ++ [a]) (by rw [List.append_assoc]; rfl)
    · rintro sink writer ts rfl
      exact h actions sink writer ts [] rfl
  · rintro ⟨hinit, hlast⟩ before sink writer ts after heq
    rcases List.eq_nil_or_concat after with rfl | ⟨after, b, rfl⟩
    · obtain ⟨rfl, ha⟩ := List.append_inj' heq rfl
      exact hlast sink writer ts (List.cons.inj ha).1
    · rw [List.concat_eq_append, ← List.cons_append, ← List.append_assoc] at heq
      obtain ⟨rfl, -⟩ := List.append_inj' heq rfl
      exact hinit before sink writer ts after rfl

theorem account_new {e : EmfEmitter} (he : e.lastCounters = .empty) :
    Account rules e s [] (World.new e : World F) := by
  have hseen : e.seen s = 0 := by
    rw [EmfEmitter.seen, he, FiniteMap.get?_empty]
    rfl
  refine ⟨?_, rfl, hseen, Nat.zero_le _, ?_⟩
  · intro name family hget
    rw [World.new, Registry.new, FiniteMap.get?_empty] at hget
    cases hget
  · refine iff_of_true hseen.symm ?_
    intro before sink writer ts after heq
    simp at heq

/-- A flush loses what is pending unless it reaches the line of the series and that stands
alone. -/
theorem Account.flushTo {e : EmfEmitter} {actions : List (Action F)} {w w' : World F} {sink : ℕ}
    {writer : ℕ → WriteResult} {ts : UInt64} (hrules : rules.Documented) (hs : s.Valid rules)
    (hrun : run rules (World.new e) actions = some w) (h : Account rules e s actions w)
    (hstep : step rules w (.flushTo sink writer ts) = some w') :
    Account rules e s (actions ++ [.flushTo sink writer ts]) w' := by
  obtain ⟨haccepted, hcounted, hseen, hle, hiff⟩ := h
  have hseen_le : w.emitter.seen s ≤ w.registry.count s := by omega
  obtain ⟨hfamilies, hseen', hreach, hmiss⟩ := step_flushTo hrules hs haccepted hseen_le hstep
  have hinc : increments s (actions ++ [.flushTo sink writer ts]) = increments s actions := by
    rw [increments_concat]
    rfl
  have hchanged : Changed rules s 0 w.registry w'.registry := .of_families_eq hfamilies
  have hcount := hchanged.count
  have hpending := pending_concat_flushTo (s := s) actions sink writer ts
  have hlast : NothingLost rules e s (actions ++ [.flushTo sink writer ts]) ↔
      NothingLost rules e s actions ∧ (pending s actions = 0 ∨
        Reaches writer w.registry s ∧ StandsAlone (w.tails sink) w.registry s) := by
    rw [nothingLost_concat]
    apply and_congr_right
    intro _
    constructor
    · exact fun hall => hall sink writer ts rfl w hrun
    · rintro hor _ _ _ ⟨⟩ w₁ hw₁
      cases hrun.symm.trans hw₁
      exact hor
  refine ⟨hchanged.accepted haccepted, by omega, by omega, ?_, ?_⟩
  · by_cases hr : Reaches writer w.registry s ∧ StandsAlone (w.tails sink) w.registry s
    · rw [hreach hr]
      omega
    · rw [hmiss hr]
      omega
  · rw [hlast, ← hiff, hseen']
    by_cases hr : Reaches writer w.registry s ∧ StandsAlone (w.tails sink) w.registry s
    · rw [hreach hr, and_iff_left (Or.inr hr)]
      omega
    · rw [hmiss hr, or_iff_left hr]
      omega

/-- Any other action counts on, and writes nothing. -/
theorem Account.count_on {e : EmfEmitter} {actions : List (Action F)} {a : Action F}
    {w w' : World F} (ha : ∀ sink writer ts, a ≠ .flushTo sink writer ts)
    (h : Account rules e s actions w) (hstep : step rules w a = some w') :
    Account rules e s (actions ++ [a]) w' := by
  obtain ⟨haccepted, hcounted, hseen, hle, hiff⟩ := h
  obtain ⟨r', rfl, hchanged⟩ := step_registry (s := s) ha hstep
  have hcount := hchanged.count
  have hpending := pending_concat (s := s) actions ha
  have hinc := increments_concat (s := s) actions a
  refine ⟨hchanged.accepted haccepted, ?_, ?_, hle, ?_⟩
  · change r'.count s = _
    omega
  · change w.emitter.seen s + _ = _
    omega
  · rw [nothingLost_concat]
    change written s w.complete = w.emitter.seen s ↔ _
    rw [hiff]
    exact ⟨fun hl => ⟨hl, fun sink writer ts heq => (ha sink writer ts heq).elim⟩, fun hl => hl.1⟩

theorem account_run (hrules : rules.Documented) (hs : s.Valid rules) {e : EmfEmitter}
    (he : e.lastCounters = .empty) {actions : List (Action F)} {w : World F}
    (h : run rules (World.new e) actions = some w) : Account rules e s actions w := by
  induction actions using List.reverseRecOn generalizing w with
  | nil =>
    cases h
    exact account_new he
  | append_singleton actions a ih =>
    rw [run_concat] at h
    obtain ⟨w₀, hrun, hstep⟩ := Option.bind_eq_some_iff.mp h
    by_cases ha : ∃ sink writer ts, a = .flushTo sink writer ts
    · obtain ⟨sink, writer, ts, rfl⟩ := ha
      exact (ih hrun).flushTo hrules hs hrun hstep
    · exact (ih hrun).count_on (fun sink writer ts h => ha ⟨sink, writer, ts, h⟩) hstep

/-- A flush that succeeds reaches the line of a series that there is something to report for. -/
theorem reaches_of_ok (hr : r.Accepted rules) {e : EmfEmitter} {tail : Line F}
    {writer : ℕ → WriteResult} {ts : UInt64} (hl : s.labels ∈ r.lineLabels)
    (hok : (e.flushTo r tail writer ts).1.2 = .ok ()) : Reaches writer r s := by
  have hmem := mem_ended (s := s) writer 0 (e.flush r ts).1
  have hended : ended writer 0 (e.flush r ts).1 = (e.flush r ts).1 := ended_of_ok hok
  rw [hended, labels_flush_events hr] at hmem
  simp only [Nat.zero_add] at hmem
  exact (hmem.mp hl).2

/-- After a run and a flush that succeeds, the deltas on the completely written lines add up to the
increments exactly when every flush before wrote the line of the series, on a line of its own, or
had nothing to report for it, and the last one had nothing to report for it or did not begin its
line behind what an earlier flush left unfinished. -/
theorem deltas_add_up (hrules : rules.Documented) (hs : s.Valid rules) {config : EmfConfig}
    {e : EmfEmitter} (he : fromConfig config = some e) {actions : List (Action F)} {w w' : World F}
    (h : run rules (World.new e) actions = some w) {sink : ℕ} {writer : ℕ → WriteResult}
    {ts : UInt64} (hlast : step rules w (.flushTo sink writer ts) = some w')
    (hok : (w.emitter.flushTo w.registry (w.tails sink) writer ts).1.2 = .ok ()) :
    written s w'.complete = increments s actions ↔
      NothingLost rules e s actions ∧
        (pending s actions = 0 ∨ StandsAlone (w.tails sink) w.registry s) := by
  have hnew : e.lastCounters = .empty := by
    rw [fromConfig] at he
    split at he
    · cases he
      rfl
    · cases he
  obtain ⟨haccepted, hcounted, hseen, -, -⟩ := account_run hrules hs hnew h
  have hrun : run rules (World.new e) (actions ++ [.flushTo sink writer ts]) = some w' := by
    rw [run_concat, h]
    exact hlast
  obtain ⟨-, -, hseen', -, hiff⟩ := account_run hrules hs hnew hrun
  rw [pending_concat_flushTo, increments_concat] at hseen'
  have hinc : w'.emitter.seen s = increments s actions := hseen'
  have hreach : pending s actions ≠ 0 → Reaches writer w.registry s := by
    intro hne
    have hseen_le : w.emitter.seen s ≤ w.registry.count s := by omega
    obtain ⟨-, -, hmem⟩ := flush_series hrules hs haccepted w.emitter ts hseen_le
    exact reaches_of_ok haccepted (hmem (by omega)) hok
  rw [← hinc, hiff, nothingLost_concat]
  apply and_congr_right
  intro _
  constructor
  · intro hall
    exact (hall sink writer ts rfl w h).imp_right And.right
  · rintro hor _ _ _ ⟨⟩ w₁ hw₁
    cases h.symm.trans hw₁
    by_cases hzero : pending s actions = 0
    · exact Or.inl hzero
    · exact Or.inr ⟨hreach hzero, hor.resolve_left hzero⟩

/-- Rules that take every name without the separators. -/
def plainRules : NameRules :=
  ⟨fun n => decide ('\x1f' ∉ n.toList), fun l => decide ('=' ∉ l.toList)⟩

theorem plainRules_documented : plainRules.Documented :=
  ⟨fun _ h => of_decide_eq_true h, fun _ h => of_decide_eq_true h⟩

def sampleConfig : EmfConfig := ⟨true, "MtcCa", .empty⟩

def sampleEmitter : EmfEmitter := ⟨"MtcCa", .empty, .empty⟩

def sampleSeries : Series := ⟨"batches_committed_total", []⟩

theorem sampleSeries_valid : sampleSeries.Valid plainRules := ⟨by decide, Or.inl rfl⟩

/-- What the lines carry after the actions and one more flush to a sink, if that one succeeds. -/
def afterLastFlush (actions : List (Action Unit)) (sink : ℕ) : Option ℕ := do
  let w ← run plainRules (World.new sampleEmitter) actions
  let w' ← step plainRules w (.flushTo sink (fun _ => .complete) 3)
  match (w.emitter.flushTo w.registry (w.tails sink) (fun _ => .complete) 3).1.2 with
  | .ok () => some (written sampleSeries w'.complete)
  | .error _ => none

theorem of_afterLastFlush {actions : List (Action Unit)} {sink n : ℕ}
    (h : afterLastFlush actions sink = some n) :
    ∃ w w', run plainRules (World.new sampleEmitter) actions = some w ∧
      step plainRules w (.flushTo sink (fun _ => .complete) 3) = some w' ∧
      (w.emitter.flushTo w.registry (w.tails sink) (fun _ => .complete) 3).1.2 = .ok () ∧
      written sampleSeries w'.complete = n := by
  obtain ⟨w, hw, hrest⟩ := Option.bind_eq_some_iff.mp h
  obtain ⟨w', hw', hrest⟩ := Option.bind_eq_some_iff.mp hrest
  refine ⟨w, w', hw, hw', ?_⟩
  cases hresult :
      (w.emitter.flushTo w.registry (w.tails sink) (fun _ => .complete) 3).1.2 with
  | error e =>
    simp only [hresult] at hrest
    cases hrest
  | ok u =>
    simp only [hresult] at hrest
    exact ⟨rfl, Option.some.inj hrest⟩

/-- A flush that is complete, and one that fails with nothing to report and leaves its event in
sink 0 without a newline. -/
def savedFlushes : List (Action Unit) :=
  [.counter "batches_committed_total", .incBy "batches_committed_total" 2,
    .flushTo 0 (fun n => if n = 0 then .complete else .jsonFails 7 "full") 1,
    .flushTo 0 (fun _ => .newlineFails "closed") 2, .incBy "batches_committed_total" 3]

/-- A last flush to another sink has all five increments; one to sink 0 has not. -/
theorem deltas_add_up_saved :
    NothingLost plainRules sampleEmitter sampleSeries savedFlushes ∧
      ∃ w, run plainRules (World.new sampleEmitter) savedFlushes = some w ∧
        ¬ StandsAlone (w.tails 0) w.registry sampleSeries := by
  have hinc : increments sampleSeries savedFlushes = 5 := by decide +kernel
  have hpending : pending sampleSeries savedFlushes ≠ 0 := by decide +kernel
  have hfresh : afterLastFlush savedFlushes 1 = some 5 := by decide +kernel
  obtain ⟨w, w', hw, hstep, hok, hwritten⟩ := of_afterLastFlush hfresh
  obtain ⟨hsaved, -⟩ := (deltas_add_up plainRules_documented sampleSeries_valid
    (show fromConfig sampleConfig = some sampleEmitter from rfl) hw hstep hok).mp
    (hwritten.trans hinc.symm)
  have hglued : afterLastFlush savedFlushes 0 = some 2 := by decide +kernel
  obtain ⟨w₀, w₀', hw₀, hstep₀, hok₀, hwritten₀⟩ := of_afterLastFlush hglued
  refine ⟨hsaved, w₀, hw₀, ?_⟩
  intro halone
  have heq := (deltas_add_up plainRules_documented sampleSeries_valid
    (show fromConfig sampleConfig = some sampleEmitter from rfl) hw₀ hstep₀ hok₀).mpr
    ⟨hsaved, Or.inr halone⟩
  rw [hwritten₀, hinc] at heq
  cases heq

/-- One increment, and a flush whose first line fails. -/
def failedFlush : List (Action Unit) :=
  [.counter "batches_committed_total", .incBy "batches_committed_total" 1,
    .flushTo 0 (fun _ => .jsonFails 0 "closed") 1]

/-- The increment that a failed flush took is on no line. -/
theorem deltas_lose_increment :
    ¬ ∀ (rules : NameRules) (s : Series) (config : EmfConfig) (e : EmfEmitter)
      (actions : List (Action Unit)) (w w' : World Unit) (sink : ℕ) (writer : ℕ → WriteResult)
      (ts : UInt64), rules.Documented → s.Valid rules → fromConfig config = some e →
      run rules (World.new e) actions = some w →
      step rules w (.flushTo sink writer ts) = some w' →
      (w.emitter.flushTo w.registry (w.tails sink) writer ts).1.2 = .ok () →
      written s w'.complete = increments s actions := by
  intro h
  have hflush : afterLastFlush failedFlush 1 = some 0 := by decide +kernel
  obtain ⟨w, w', hw, hstep, hok, hwritten⟩ := of_afterLastFlush hflush
  have hinc : increments sampleSeries failedFlush = 1 := by decide +kernel
  have heq := h plainRules sampleSeries sampleConfig sampleEmitter failedFlush w w' 1
    (fun _ => .complete) 3 plainRules_documented sampleSeries_valid rfl hw hstep hok
  rw [hwritten, hinc] at heq
  cases heq

end Metrics
