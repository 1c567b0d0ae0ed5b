import MtcCa.Cloud.Types

/-! Lag scheduling and deduplication for one replication link
(`crates/dev-replicator/src/lag.rs`), and the loop of both pollers that applies what is due
(`crates/dev-replicator/src/lib.rs`). -/
namespace DevReplicator

open Cloud

/-- How long a discovered change sits before it is released. -/
inductive LagPolicy where
  | fixed (lag : Duration)
  | stalled
deriving DecidableEq

def LagPolicy.immediate : LagPolicy := .fixed ⟨0⟩

/-- A discovered change, tagged with when it was first noticed. -/
structure Discovered (K E : Type) where
  key : K
  event : E
  discoveredAt : SystemTime

structure LagScheduler (K E : Type) where
  policy : LagPolicy
  pending : List (Discovered K E)
  applied : Finset K

/-- The time from one instant to a later one, zero when the clock went back. -/
def durationSince (now earlier : SystemTime) : ℕ := (now.nanos - earlier.nanos).toNat

namespace LagScheduler

variable {K E : Type} [DecidableEq K] {s s' : LagScheduler K E} {now : SystemTime}
  {due : List (Discovered K E)}

def new (policy : LagPolicy) : LagScheduler K E := ⟨policy, [], ∅⟩

def setPolicy (s : LagScheduler K E) (policy : LagPolicy) : LagScheduler K E :=
  { s with policy := policy }

/-- Queues a change unless its key is pending or applied already; says whether it did. -/
def discover (s : LagScheduler K E) (key : K) (event : E) (discoveredAt : SystemTime) :
    Bool × LagScheduler K E :=
  if key ∈ s.applied then (false, s)
  else if s.pending.any (fun d => d.key = key) then (false, s)
  else (true, { s with pending := s.pending ++ [⟨key, event, discoveredAt⟩] })

/-- Pops the front of the queue while its lag has elapsed. -/
def drainFront (lag : Duration) (now : SystemTime) :
    List (Discovered K E) → Finset K → List (Discovered K E) × List (Discovered K E) × Finset K
  | [], applied => ([], [], applied)
  | front :: rest, applied =>
    if durationSince now front.discoveredAt < lag.nanos then ([], front :: rest, applied)
    else
      let (due, pending, applied) := drainFront lag now rest (insert front.key applied)
      (front :: due, pending, applied)

def drainDue (s : LagScheduler K E) (now : SystemTime) :
    List (Discovered K E) × LagScheduler K E :=
  match s.policy with
  | .stalled => ([], s)
  | .fixed lag =>
    let (due, pending, applied) := drainFront lag now s.pending s.applied
    (due, ⟨s.policy, pending, applied⟩)

def pendingLen (s : LagScheduler K E) : ℕ := s.pending.length

def oldestPendingAge (s : LagScheduler K E) (now : SystemTime) : Option ℕ :=
  s.pending.head?.map (fun d => durationSince now d.discoveredAt)

def appliedLen (s : LagScheduler K E) : ℕ := s.applied.card

/-- The keys that were ever queued. -/
def seen (s : LagScheduler K E) : Finset K := s.applied ∪ (s.pending.map Discovered.key).toFinset

theorem mem_seen {key : K} :
    key ∈ s.seen ↔ key ∈ s.applied ∨ ∃ d ∈ s.pending, d.key = key := by
  rw [seen, Finset.mem_union, List.mem_toFinset, List.mem_map]

/-- A change is queued exactly when its key was never queued before. -/
theorem discover_eq (s : LagScheduler K E) (key : K) (event : E) (now : SystemTime) :
    s.discover key event now =
      if key ∈ s.seen then (false, s)
      else (true, { s with pending := s.pending ++ [⟨key, event, now⟩] }) := by
  unfold discover
  by_cases happlied : key ∈ s.applied
  · rw [if_pos happlied, if_pos (mem_seen.mpr (Or.inl happlied))]
  · rw [if_neg happlied]
    congr 1
    simp [mem_seen, happlied]

theorem seen_append {d : Discovered K E} :
    ({ s with pending := s.pending ++ [d] } : LagScheduler K E).seen = insert d.key s.seen := by
  ext key
  simp only [mem_seen, Finset.mem_insert, List.mem_append, List.mem_singleton, or_and_right,
    exists_or, exists_eq_left]
  constructor
  · rintro (h | h | rfl)
    · exact Or.inr (Or.inl h)
    · exact Or.inr (Or.inr h)
    · exact Or.inl rfl
  · rintro (rfl | h | h)
    · exact Or.inr (Or.inr rfl)
    · exact Or.inl h
    · exact Or.inr (Or.inl h)

theorem drainFront_spec (lag : Duration) (now : SystemTime) (l : List (Discovered K E))
    (applied : Finset K) :
    (drainFront lag now l applied).1 ++ (drainFront lag now l applied).2.1 = l ∧
      (drainFront lag now l applied).2.2 =
        applied ∪ ((drainFront lag now l applied).1.map Discovered.key).toFinset := by
  induction l generalizing applied with
  | nil => simp [drainFront]
  | cons front rest ih =>
    unfold drainFront
    split
    · simp
    · obtain ⟨happend, happlied⟩ := ih (insert front.key applied)
      refine ⟨congrArg (front :: ·) happend, ?_⟩
      simp only [happlied, List.map_cons, List.toFinset_cons]
      rw [Finset.insert_union, Finset.union_insert]

/-- Draining takes a front part of the queue and marks its keys applied. -/
theorem drainDue_spec (h : s.drainDue now = (due, s')) :
    s.pending = due ++ s'.pending ∧
      s'.applied = s.applied ∪ (due.map Discovered.key).toFinset ∧ s'.policy = s.policy := by
  unfold drainDue at h
  split at h
  · cases h
    simp
  · next lag hpolicy =>
    obtain ⟨happend, happlied⟩ := drainFront_spec lag now s.pending s.applied
    cases h
    exact ⟨happend.symm, happlied, rfl⟩

/-- Draining forgets no key. -/
theorem seen_drainDue (h : s.drainDue now = (due, s')) : s'.seen = s.seen := by
  obtain ⟨hpending, happlied, -⟩ := drainDue_spec h
  ext key
  rw [mem_seen, mem_seen, happlied, hpending]
  simp only [Finset.mem_union, List.mem_toFinset, List.mem_map, List.mem_append, or_and_right,
    exists_or, or_assoc]

/-- Without lag everything pending is due at once. -/
theorem drainDue_immediate (hpolicy : s.policy = .immediate) (h : s.drainDue now = (due, s')) :
    due = s.pending ∧ s'.pending = [] := by
  have hall : ∀ (l : List (Discovered K E)) (applied : Finset K),
      (drainFront ⟨0⟩ now l applied).1 = l ∧ (drainFront ⟨0⟩ now l applied).2.1 = [] := by
    intro l
    induction l with
    | nil => exact fun _ => ⟨rfl, rfl⟩
    | cons front rest ih =>
      intro applied
      obtain ⟨hdue, hpending⟩ := ih (insert front.key applied)
      rw [drainFront, if_neg (Nat.not_lt_zero _)]
      exact ⟨congrArg (front :: ·) hdue, hpending⟩
  obtain ⟨hdue, hpending⟩ := hall s.pending s.applied
  rw [drainDue, hpolicy] at h
  cases h
  exact ⟨hdue, hpending⟩

/-- What is queued carries each key once, and none that was applied. -/
structure Distinct (s : LagScheduler K E) : Prop where
  nodup : (s.pending.map Discovered.key).Nodup
  notMem_applied : ∀ d ∈ s.pending, d.key ∉ s.applied

theorem Distinct.discover (h : s.Distinct) (key : K) (event : E) (now : SystemTime) :
    (s.discover key event now).2.Distinct := by
  rw [discover_eq]
  split
  · exact h
  · next hnew =>
    rw [mem_seen, not_or] at hnew
    obtain ⟨happlied, hpending⟩ := hnew
    refine ⟨?_, ?_⟩
    · rw [List.map_append, List.nodup_append']
      refine ⟨h.nodup, List.nodup_singleton _, ?_⟩
      rw [List.map_singleton, List.disjoint_singleton, List.mem_map]
      exact hpending
    · intro d hd
      rcases List.mem_append.mp hd with hd | hd
      · exact h.notMem_applied d hd
      · rw [List.mem_singleton.mp hd]
        exact happlied

/-- Discovers several changes at one instant, in order. -/
def offerAll (s : LagScheduler K E) (now : SystemTime) (offers : List (K × E)) :
    LagScheduler K E :=
  offers.foldl (fun s offer => (s.discover offer.1 offer.2 now).2) s

theorem offerAll_cons (s : LagScheduler K E) (now : SystemTime) (offer : K × E)
    (offers : List (K × E)) :
    s.offerAll now (offer :: offers) = (s.discover offer.1 offer.2 now).2.offerAll now offers := rfl

theorem offerAll_append (s : LagScheduler K E) (now : SystemTime) (offers offers' : List (K × E)) :
    s.offerAll now (offers ++ offers') = (s.offerAll now offers).offerAll now offers' :=
  List.foldl_append

/-- The change an offer turns into. -/
def toDiscovered (now : SystemTime) (offer : K × E) : Discovered K E :=
  ⟨offer.1, offer.2, now⟩

/-- Offers are queued behind what is pending and change nothing else. -/
theorem offerAll_spec (s : LagScheduler K E) (now : SystemTime) (offers : List (K × E)) :
    ∃ new, (s.offerAll now offers).pending = s.pending ++ new ∧
      (s.offerAll now offers).applied = s.applied ∧ (s.offerAll now offers).policy = s.policy ∧
      new.Sublist (offers.map (toDiscovered now)) ∧
      ∀ key, key ∈ (s.offerAll now offers).seen ↔ key ∈ s.seen ∨ key ∈ offers.map Prod.fst := by
  induction offers generalizing s with
  | nil => exact ⟨[], by simp [offerAll]⟩
  | cons offer offers ih =>
    rw [offerAll_cons, discover_eq]
    by_cases hseen : offer.1 ∈ s.seen
    · rw [if_pos hseen]
      obtain ⟨new, hpending, happlied, hpolicy, hnew, hkeys⟩ := ih s
      refine ⟨new, hpending, happlied, hpolicy, hnew.trans (List.sublist_cons_self ..), ?_⟩
      intro key
      rw [hkeys, List.map_cons, List.mem_cons]
      constructor
      · rintro (h | h)
        · exact Or.inl h
        · exact Or.inr (Or.inr h)
      · rintro (h | rfl | h)
        · exact Or.inl h
        · exact Or.inl hseen
        · exact Or.inr h
    · rw [if_neg hseen]
      obtain ⟨new, hpending, happlied, hpolicy, hnew, hkeys⟩ :=
        ih { s with pending := s.pending ++ [⟨offer.1, offer.2, now⟩] }
      refine ⟨⟨offer.1, offer.2, now⟩ :: new, ?_, happlied, hpolicy, hnew.cons_cons _, ?_⟩
      · rw [hpending, List.append_assoc]
        rfl
      · intro key
        rw [hkeys, seen_append, Finset.mem_insert, List.map_cons, List.mem_cons]
        constructor
        · rintro ((h | h) | h)
          · exact Or.inr (Or.inl h)
          · exact Or.inl h
          · exact Or.inr (Or.inr h)
        · rintro (h | h | h)
          · exact Or.inl (Or.inr h)
          · exact Or.inl (Or.inl h)
          · exact Or.inr h

theorem Distinct.offerAll (h : s.Distinct) (now : SystemTime) (offers : List (K × E)) :
    (s.offerAll now offers).Distinct := by
  induction offers generalizing s with
  | nil => exact h
  | cons offer offers ih => exact ih (h.discover offer.1 offer.2 now)

/-- Offers of different keys are queued exactly when their key was never queued before. -/
theorem offerAll_pending {offers : List (K × E)} (hnodup : (offers.map Prod.fst).Nodup)
    (s : LagScheduler K E) (now : SystemTime) :
    (s.offerAll now offers).pending = s.pending ++
      (offers.filter (fun offer => offer.1 ∉ s.seen)).map (toDiscovered now) := by
  induction offers generalizing s with
  | nil => simp [LagScheduler.offerAll]
  | cons offer offers ih =>
    obtain ⟨hnew, hnodup⟩ := List.nodup_cons.mp hnodup
    rw [offerAll_cons, discover_eq]
    by_cases hseen : offer.1 ∈ s.seen
    · rw [if_pos hseen, ih hnodup, List.filter_cons_of_neg (by simpa using hseen)]
    · have hfilter : offers.filter (fun o => o.1 ∉
          ({ s with pending := s.pending ++ [⟨offer.1, offer.2, now⟩] } : LagScheduler K E).seen) =
          offers.filter (fun o => o.1 ∉ s.seen) := by
        apply List.filter_congr
        intro o ho
        have hne : o.1 ≠ offer.1 := fun heq => hnew (heq ▸ List.mem_map_of_mem ho)
        simp [seen_append, hne]
      rw [if_neg hseen, ih hnodup, hfilter, List.filter_cons_of_pos (by simpa using hseen),
        List.map_cons, List.append_assoc]
      rfl

end LagScheduler

/-- What became of one change that was due; a failed write may have reached the target when
only its answer was lost. -/
inductive Outcome where
  | applied
  | stale
  | failed (written : Bool)
deriving DecidableEq

/-- Outcome of one pass over the changes that were due. -/
structure ApplySummary where
  applied : ℕ
  stale : ℕ
  failed : ℕ
deriving DecidableEq

namespace ApplySummary

def zero : ApplySummary := ⟨0, 0, 0⟩

def attempted (s : ApplySummary) : ℕ := s.applied + s.stale + s.failed

def count (s : ApplySummary) : Outcome → ApplySummary
  | .applied => { s with applied := s.applied + 1 }
  | .stale => { s with stale := s.stale + 1 }
  | .failed _ => { s with failed := s.failed + 1 }

end ApplySummary

/-- Applies the due changes in order; one failure does not stall the rest. Gives what became of
each. -/
def applyAll {K E W : Type} (applyOne : Discovered K E → W → Outcome × W) :
    List (Discovered K E) → W → List (Discovered K E × Outcome) × W
  | [], target => ([], target)
  | item :: due, target =>
    let (outcome, target) := applyOne item target
    let (attempts, target) := applyAll applyOne due target
    ((item, outcome) :: attempts, target)

/-- The counts of a pass. -/
def summarize {K E : Type} (attempts : List (Discovered K E × Outcome)) : ApplySummary :=
  attempts.foldl (fun summary a => summary.count a.2) .zero

/-- Every due change is attempted once, in order. -/
theorem map_fst_applyAll {K E W : Type} {applyOne : Discovered K E → W → Outcome × W}
    {due : List (Discovered K E)} {target : W} :
    (applyAll applyOne due target).1.map Prod.fst = due := by
  induction due generalizing target with
  | nil => rfl
  | cons item due ih => exact congrArg (item :: ·) ih

/-- The life of a link's changes so far: what was queued, and what became of what left the
queue. -/
structure Ledger (K E : Type) where
  queued : List (Discovered K E)
  attempts : List (Discovered K E × Outcome)

namespace Ledger

variable {K E : Type} [DecidableEq K] {l : Ledger K E} {s s' : LagScheduler K E}

def empty : Ledger K E := ⟨[], []⟩

/-- The ledger after offers that left the queue as it is now. -/
def recordQueued (l : Ledger K E) (s s' : LagScheduler K E) : Ledger K E :=
  { l with queued := l.queued ++ s'.pending.drop s.pending.length }

def recordAttempts (l : Ledger K E) (attempts : List (Discovered K E × Outcome)) : Ledger K E :=
  { l with attempts := l.attempts ++ attempts }

/-- What was queued left the queue in order, and its keys are the applied ones. -/
structure Matches (l : Ledger K E) (s : LagScheduler K E) : Prop where
  queued : l.queued = l.attempts.map Prod.fst ++ s.pending
  applied : s.applied = ((l.attempts.map Prod.fst).map Discovered.key).toFinset
  nodup : (l.queued.map Discovered.key).Nodup

theorem matches_new (policy : LagPolicy) : (empty : Ledger K E).Matches (.new policy) :=
  ⟨rfl, rfl, List.nodup_nil⟩

theorem Matches.setPolicy (h : l.Matches s) (policy : LagPolicy) : l.Matches (s.setPolicy policy) :=
  ⟨h.queued, h.applied, h.nodup⟩

theorem Matches.distinct (h : l.Matches s) : s.Distinct := by
  have hnodup := h.nodup
  rw [h.queued, List.map_append, List.nodup_append'] at hnodup
  obtain ⟨-, hpending, hdisjoint⟩ := hnodup
  refine ⟨hpending, ?_⟩
  intro d hd hmem
  rw [h.applied, List.mem_toFinset] at hmem
  exact hdisjoint hmem (List.mem_map_of_mem hd)

theorem Matches.mem_seen (h : l.Matches s) {key : K} :
    key ∈ s.seen ↔ key ∈ l.queued.map Discovered.key := by
  rw [LagScheduler.mem_seen, h.applied, h.queued, List.mem_toFinset, List.map_append,
    List.mem_append]
  refine or_congr Iff.rfl ?_
  rw [List.mem_map]

theorem Matches.offerAll (h : l.Matches s) (now : SystemTime) (offers : List (K × E)) :
    (l.recordQueued s (s.offerAll now offers)).Matches (s.offerAll now offers) := by
  obtain ⟨new, hpending, happlied, -⟩ := s.offerAll_spec now offers
  have hqueued : (l.recordQueued s (s.offerAll now offers)).queued =
      l.attempts.map Prod.fst ++ (s.offerAll now offers).pending := by
    simp only [recordQueued]
    rw [h.queued, hpending, List.drop_left, List.append_assoc]
  refine ⟨hqueued, happlied.trans h.applied, ?_⟩
  have hdistinct := h.distinct.offerAll now offers
  rw [hqueued, List.map_append, List.nodup_append']
  have hnodup := h.nodup
  rw [h.queued, List.map_append, List.nodup_append'] at hnodup
  refine ⟨hnodup.1, hdistinct.nodup, ?_⟩
  intro key hkey hmem
  obtain ⟨d, hd, rfl⟩ := List.mem_map.mp hmem
  refine hdistinct.notMem_applied d hd ?_
  rw [happlied, h.applied, List.mem_toFinset]
  exact hkey

theorem Matches.drainDue (h : l.Matches s) {now : SystemTime} {due : List (Discovered K E)}
    (hdrain : s.drainDue now = (due, s')) {attempts : List (Discovered K E × Outcome)}
    (hattempts : attempts.map Prod.fst = due) : (l.recordAttempts attempts).Matches s' := by
  obtain ⟨hpending, happlied, -⟩ := LagScheduler.drainDue_spec hdrain
  have hqueued : l.queued = (l.attempts ++ attempts).map Prod.fst ++ s'.pending := by
    rw [h.queued, hpending, List.map_append, hattempts, List.append_assoc]
  refine ⟨hqueued, ?_, h.nodup⟩
  rw [happlied, h.applied, ← hattempts, ← List.toFinset_append, ← List.map_append,
    ← List.map_append]
  rfl

/-- A change that left the queue without a failure. -/
def unfailed (a : Discovered K E × Outcome) : Bool :=
  match a.2 with
  | .failed _ => false
  | _ => true

/-- No queued change is lost, and the applied count is that of the changes that left the queue
without a failure. -/
structure Accounted (l : Ledger K E) (s : LagScheduler K E) : Prop where
  kept : ∀ d ∈ l.queued, d ∈ s.pending ∨ (d, .applied) ∈ l.attempts ∨
    (d, .failed true) ∈ l.attempts ∨ (d, .stale) ∈ l.attempts
  count : s.appliedLen = (l.attempts.filter unfailed).length

theorem Matches.appliedLen (h : l.Matches s) : s.appliedLen = l.attempts.length := by
  have hnodup := h.nodup
  rw [h.queued, List.map_append, List.nodup_append'] at hnodup
  rw [LagScheduler.appliedLen, h.applied, List.toFinset_card_of_nodup hnodup.1, List.length_map,
    List.length_map]

/-- The accounts are right exactly when nothing that left the queue failed. -/
theorem Matches.accounted_iff (h : l.Matches s) :
    l.Accounted s ↔ ∀ a ∈ l.attempts, unfailed a = true := by
  constructor
  · intro hacc
    have hcount := hacc.count
    rw [h.appliedLen] at hcount
    exact List.length_filter_eq_length_iff.mp hcount.symm
  · intro hall
    refine ⟨?_, ?_⟩
    · intro d hd
      rw [h.queued, List.mem_append] at hd
      rcases hd with hd | hd
      · right
        obtain ⟨⟨d', outcome⟩, ha, rfl⟩ := List.mem_map.mp hd
        have hok := hall _ ha
        cases outcome with
        | applied => exact Or.inl ha
        | stale => exact Or.inr (Or.inr ha)
        | failed written => cases hok
      · exact Or.inl hd
    · rw [h.appliedLen, List.filter_eq_self.mpr hall]

end Ledger

end DevReplicator
