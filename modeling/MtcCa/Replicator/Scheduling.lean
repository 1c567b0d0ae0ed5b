import MtcCa.Lib.FirstPerKey
import MtcCa.Replicator.Lag

/-! What a lag scheduler gives out over any sequence of calls: every key once, in the order of
its first discovery, as soon as its lag has elapsed and not before. -/
namespace DevReplicator

open Cloud FirstPerKey

/-- One call on a scheduler. -/
inductive Call (K E : Type) where
  | discover (key : K) (event : E) (discoveredAt : SystemTime)
  | drainDue (now : SystemTime)
  | setPolicy (policy : LagPolicy)
deriving DecidableEq

namespace Call

variable {K E : Type}

/-- The instant a call is made at; a change of the policy reads no clock. -/
def time? : Call K E → Option SystemTime
  | discover _ _ discoveredAt => some discoveredAt
  | drainDue now => some now
  | setPolicy _ => none

/-- The change a call reports. -/
def discovery? : Call K E → Option (Discovered K E)
  | discover key event discoveredAt => some ⟨key, event, discoveredAt⟩
  | _ => none

def policy? : Call K E → Option LagPolicy
  | setPolicy policy => some policy
  | _ => none

/-- The call that reports a change. -/
def report (d : Discovered K E) : Call K E := discover d.key d.event d.discoveredAt

end Call

section calls

variable {K E : Type}

/-- All changes that were reported, in order. -/
def discoveries (calls : List (Call K E)) : List (Discovered K E) :=
  calls.filterMap Call.discovery?

/-- The policy last set. -/
def inForce (policy : LagPolicy) (calls : List (Call K E)) : LagPolicy :=
  (calls.filterMap Call.policy?).getLastD policy

/-- The clock never goes back from one call to a later one. -/
def Timely (calls : List (Call K E)) : Prop := (calls.filterMap Call.time?).Pairwise (· ≤ ·)

instance (calls : List (Call K E)) : Decidable (Timely calls) :=
  inferInstanceAs (Decidable (List.Pairwise _ _))

theorem discoveries_concat (calls : List (Call K E)) (call : Call K E) :
    discoveries (calls ++ [call]) = discoveries calls ++ call.discovery?.toList := by
  rw [discoveries, List.filterMap_append]
  cases call <;> rfl

theorem inForce_concat (policy : LagPolicy) (calls : List (Call K E)) (call : Call K E) :
    inForce policy (calls ++ [call]) = call.policy?.getD (inForce policy calls) := by
  rw [inForce, List.filterMap_append]
  cases call <;> simp [Call.policy?, inForce]

/-- Later reports carry later instants, and every report precedes the calls after it. -/
theorem Timely.discovered_le {before after : List (Call K E)} {now : SystemTime}
    (h : Timely (before ++ .drainDue now :: after)) :
    (discoveries before).Pairwise (fun a b => a.discoveredAt ≤ b.discoveredAt) ∧
      ∀ d ∈ discoveries before, d.discoveredAt ≤ now := by
  have htime : ∀ calls : List (Call K E), ((discoveries calls).map Discovered.discoveredAt).Sublist
      (calls.filterMap Call.time?) := by
    intro calls
    induction calls with
    | nil => exact List.Sublist.refl _
    | cons call calls ih =>
      cases call with
      | discover key event discoveredAt => exact ih.cons_cons _
      | drainDue now => exact ih.cons _
      | setPolicy policy => exact ih
  rw [Timely, List.filterMap_append, List.pairwise_append] at h
  obtain ⟨hbefore, -, hle⟩ := h
  refine ⟨List.pairwise_map.mp (hbefore.sublist (htime before)), ?_⟩
  intro d hd
  exact hle _ ((htime before).subset (List.mem_map_of_mem hd)) now List.mem_cons_self

end calls

namespace LagScheduler

variable {K E : Type} [DecidableEq K] {s s' : LagScheduler K E} {now : SystemTime}
  {lag : Duration} {policy : LagPolicy} {calls : List (Call K E)}

/-- What a call gives out, and the scheduler after it. -/
def call (s : LagScheduler K E) : Call K E → List (Discovered K E) × LagScheduler K E
  | .discover key event discoveredAt => ([], (s.discover key event discoveredAt).2)
  | .drainDue now => s.drainDue now
  | .setPolicy policy => ([], s.setPolicy policy)

/-- All that a sequence of calls gives out, and the scheduler after it. -/
def run (s : LagScheduler K E) : List (Call K E) → List (Discovered K E) × LagScheduler K E
  | [] => ([], s)
  | c :: calls =>
    let (due, s) := s.call c
    let (later, s) := s.run calls
    (due ++ later, s)

theorem run_append (s : LagScheduler K E) (calls calls' : List (Call K E)) :
    s.run (calls ++ calls') = ((s.run calls).1 ++ ((s.run calls).2.run calls').1,
      ((s.run calls).2.run calls').2) := by
  induction calls generalizing s with
  | nil => rfl
  | cons c calls ih => simp only [List.cons_append, run, ih, List.append_assoc]

theorem run_concat (s : LagScheduler K E) (calls : List (Call K E)) (c : Call K E) :
    s.run (calls ++ [c]) = ((s.run calls).1 ++ ((s.run calls).2.call c).1,
      ((s.run calls).2.call c).2) := by
  simp only [run_append, run, List.append_nil]

/-- A scheduler after some calls: what it gave out and what it holds are the first reports. -/
structure Follows (policy : LagPolicy) (calls : List (Call K E)) (drained : List (Discovered K E))
    (s : LagScheduler K E) : Prop where
  firsts : drained ++ s.pending = firsts Discovered.key (discoveries calls)
  applied : s.applied = (drained.map Discovered.key).toFinset
  policy : s.policy = inForce policy calls

theorem Follows.mem_seen {drained : List (Discovered K E)} (h : s.Follows policy calls drained)
    {key : K} : key ∈ s.seen ↔ key ∈ (discoveries calls).map Discovered.key := by
  rw [← mem_map_firsts, ← h.firsts, LagScheduler.mem_seen, h.applied, List.mem_toFinset,
    List.map_append, List.mem_append]
  exact or_congr_right List.mem_map.symm

theorem follows_new (policy : LagPolicy) :
    (new policy : LagScheduler K E).Follows policy [] [] :=
  ⟨rfl, rfl, rfl⟩

/-- A report of a known key changes nothing; a new one goes to the end of the queue. -/
theorem Follows.discover {drained : List (Discovered K E)} (h : s.Follows policy calls drained)
    (key : K) (event : E) (discoveredAt : SystemTime) :
    (s.discover key event discoveredAt).2.Follows policy
      (calls ++ [.discover key event discoveredAt]) drained := by
  have hfirsts := firsts_concat Discovered.key (discoveries calls) ⟨key, event, discoveredAt⟩
  rw [discover_eq]
  by_cases hseen : key ∈ s.seen
  · rw [if_pos hseen]
    rw [if_pos (h.mem_seen.mp hseen)] at hfirsts
    refine ⟨?_, h.applied, ?_⟩
    · rw [discoveries_concat, Call.discovery?, Option.toList_some, hfirsts, h.firsts]
    · rw [inForce_concat, h.policy]
      rfl
  · rw [if_neg hseen]
    rw [if_neg (mt h.mem_seen.mpr hseen)] at hfirsts
    refine ⟨?_, h.applied, ?_⟩
    · rw [discoveries_concat, Call.discovery?, Option.toList_some, hfirsts, ← h.firsts,
        List.append_assoc]
    · rw [inForce_concat]
      exact h.policy

theorem Follows.drainDue {drained due : List (Discovered K E)} (h : s.Follows policy calls drained)
    (hdrain : s.drainDue now = (due, s')) :
    s'.Follows policy (calls ++ [.drainDue now]) (drained ++ due) := by
  obtain ⟨hpending, happlied, hpolicy⟩ := drainDue_spec hdrain
  refine ⟨?_, ?_, ?_⟩
  · rw [discoveries_concat, show (Call.drainDue now : Call K E).discovery?.toList = [] from rfl,
      List.append_nil, ← h.firsts, hpending, List.append_assoc]
  · rw [happlied, h.applied, List.map_append, List.toFinset_append]
  · rw [inForce_concat, hpolicy, h.policy]
    rfl

theorem Follows.setPolicy {drained : List (Discovered K E)} (h : s.Follows policy calls drained)
    (policy' : LagPolicy) :
    (s.setPolicy policy').Follows policy (calls ++ [.setPolicy policy']) drained := by
  refine ⟨?_, h.applied, ?_⟩
  · have hnone : (Call.setPolicy policy' : Call K E).discovery?.toList = [] := rfl
    rw [discoveries_concat, hnone, List.append_nil]
    exact h.firsts
  · rw [inForce_concat]
    rfl

theorem Follows.call {drained : List (Discovered K E)} (h : s.Follows policy calls drained)
    (c : Call K E) :
    (s.call c).2.Follows policy (calls ++ [c]) (drained ++ (s.call c).1) := by
  cases c with
  | discover key event discoveredAt =>
    simp only [LagScheduler.call, List.append_nil]
    exact h.discover key event discoveredAt
  | drainDue now => exact h.drainDue rfl
  | setPolicy policy' =>
    simp only [LagScheduler.call, List.append_nil]
    exact h.setPolicy policy'

theorem follows_run (policy : LagPolicy) (calls : List (Call K E)) :
    ((new policy).run calls).2.Follows policy calls ((new policy).run calls).1 := by
  induction calls using List.reverseRecOn with
  | nil => exact follows_new policy
  | append_singleton calls c ih =>
    rw [run_concat]
    exact ih.call c

theorem Follows.nodup {drained : List (Discovered K E)} (h : s.Follows policy calls drained) :
    ((drained ++ s.pending).map Discovered.key).Nodup := by
  rw [h.firsts]
  exact nodup_firsts ..

theorem Follows.distinct {drained : List (Discovered K E)} (h : s.Follows policy calls drained) :
    s.Distinct := by
  have hnodup := h.nodup
  rw [List.map_append, List.nodup_append'] at hnodup
  obtain ⟨-, hpending, hdisjoint⟩ := hnodup
  refine ⟨hpending, ?_⟩
  intro d hd hmem
  rw [h.applied, List.mem_toFinset] at hmem
  exact hdisjoint hmem (List.mem_map_of_mem hd)

/-- Reports of known keys leave a scheduler as it is. -/
theorem run_known {reports : List (Discovered K E)} (h : ∀ d ∈ reports, d.key ∈ s.seen) :
    s.run (reports.map Call.report) = ([], s) := by
  induction reports with
  | nil => rfl
  | cons d reports ih =>
    have hd : (s.discover d.key d.event d.discoveredAt).2 = s := by
      rw [discover_eq, if_pos (h d List.mem_cons_self)]
    simp only [List.map_cons, run, Call.report, call, hd]
    rw [ih (fun d' hd' => h d' (List.mem_cons_of_mem _ hd'))]
    rfl

/-- Nothing leaves the queue before its lag has elapsed. -/
theorem elapsed_of_mem_drainFront {l : List (Discovered K E)} {applied : Finset K}
    {d : Discovered K E} (hd : d ∈ (drainFront lag now l applied).1) :
    lag.nanos ≤ durationSince now d.discoveredAt := by
  induction l generalizing applied with
  | nil => cases hd
  | cons front rest ih =>
    unfold drainFront at hd
    split at hd
    · cases hd
    · next hfront =>
      rcases List.mem_cons.mp hd with rfl | hd
      · exact Nat.le_of_not_lt hfront
      · exact ih hd

theorem durationSince_anti {a b : SystemTime} (h : a ≤ b) :
    durationSince now b ≤ durationSince now a := by
  have hle : a.nanos ≤ b.nanos := h
  unfold durationSince
  omega

/-- In a queue ordered by age the first change that is not due holds back no due one. -/
theorem mem_drainFront_of_elapsed {l : List (Discovered K E)} {applied : Finset K}
    {d : Discovered K E} (hl : l.Pairwise (fun a b => a.discoveredAt ≤ b.discoveredAt))
    (hd : d ∈ l) (hlag : lag.nanos ≤ durationSince now d.discoveredAt) :
    d ∈ (drainFront lag now l applied).1 := by
  induction l generalizing applied with
  | nil => cases hd
  | cons front rest ih =>
    obtain ⟨hfront, hrest⟩ := List.pairwise_cons.mp hl
    have hdue : lag.nanos ≤ durationSince now front.discoveredAt := by
      rcases List.mem_cons.mp hd with rfl | hmem
      · exact hlag
      · exact hlag.trans (durationSince_anti (hfront d hmem))
    rw [drainFront, if_neg (Nat.not_lt.mpr hdue)]
    rcases List.mem_cons.mp hd with rfl | hmem
    · exact List.mem_cons_self
    · exact List.mem_cons_of_mem _ (ih hrest hmem)

/-- One draining under a policy: nothing while stalled, else exactly the pending changes whose
lag has elapsed. -/
structure ReleasesDue (policy : LagPolicy) (now : SystemTime)
    (pending due : List (Discovered K E)) : Prop where
  stalled : policy = .stalled → due = []
  fixed : ∀ lag, policy = .fixed lag → ∀ d,
    d ∈ due ↔ d ∈ pending ∧ lag.nanos ≤ durationSince now d.discoveredAt

theorem releasesDue_drainDue
    (h : s.pending.Pairwise (fun a b => a.discoveredAt ≤ b.discoveredAt)) :
    ReleasesDue s.policy now s.pending (s.drainDue now).1 := by
  constructor
  · intro hpolicy
    rw [drainDue, hpolicy]
  · intro lag hpolicy d
    obtain ⟨happend, -⟩ := drainFront_spec lag now s.pending s.applied
    rw [drainDue, hpolicy]
    constructor
    · intro hd
      exact ⟨happend ▸ List.mem_append_left _ hd, elapsed_of_mem_drainFront hd⟩
    · rintro ⟨hd, hlag⟩
      exact mem_drainFront_of_elapsed h hd hlag

/-- A scheduler over a sequence of calls. -/
structure Delivers (policy : LagPolicy) (calls : List (Call K E)) : Prop where
  /-- Pending keys are distinct, and none was applied. -/
  distinct : ((new policy).run calls).2.Distinct
  /-- What was drained and what is pending are the first reports of the keys, in order. -/
  inOrder : ((new policy).run calls).1 ++ ((new policy).run calls).2.pending =
    firsts Discovered.key (discoveries calls)
  once : (((new policy).run calls).1.map Discovered.key).Nodup
  applied : ((new policy).run calls).2.applied =
    (((new policy).run calls).1.map Discovered.key).toFinset
  due : ∀ before now after, calls = before ++ .drainDue now :: after →
    ReleasesDue (inForce policy before) now ((new policy).run before).2.pending
      (((new policy).run before).2.drainDue now).1
  /-- Reporting known keys again changes nothing, and nothing but what is pending can follow. -/
  replayed : ∀ reports : List (Discovered K E),
    (∀ d ∈ reports, d.key ∈ (discoveries calls).map Discovered.key) →
    (new policy).run (calls ++ reports.map Call.report) = (new policy).run calls ∧
    ∀ now, ∃ due, due <+: ((new policy).run calls).2.pending ∧
      ((new policy).run (calls ++ reports.map Call.report ++ [.drainDue now])).1 =
        ((new policy).run calls).1 ++ due

/-- Whatever the policies and the order of the calls, keys are delivered once, in the order they
were first reported, and as soon as they are due. -/
theorem lag_scheduler_delivers (policy : LagPolicy) (calls : List (Call K E))
    (htimely : Timely calls) : Delivers policy calls := by
  have hrun := follows_run policy calls
  have hnodup := hrun.nodup
  rw [List.map_append, List.nodup_append'] at hnodup
  refine ⟨hrun.distinct, hrun.firsts, hnodup.1, hrun.applied, ?_, ?_⟩
  · rintro before now after rfl
    have hbefore := follows_run policy before
    rw [← hbefore.policy]
    apply releasesDue_drainDue
    obtain ⟨hsorted, -⟩ := htimely.discovered_le
    have hfirsts := hsorted.sublist (firsts_sublist Discovered.key _)
    rw [← hbefore.firsts] at hfirsts
    exact hfirsts.sublist (List.sublist_append_right ..)
  · intro reports hreports
    have hknown : (new policy).run (calls ++ reports.map Call.report) =
        (new policy).run calls := by
      rw [run_append, run_known (fun d hd => hrun.mem_seen.mpr (hreports d hd)), List.append_nil]
    refine ⟨hknown, fun now => ?_⟩
    obtain ⟨due, s', hdrain⟩ : ∃ due s', ((new policy).run calls).2.drainDue now = (due, s') :=
      ⟨_, _, rfl⟩
    obtain ⟨hpending, -⟩ := drainDue_spec hdrain
    have hcall : ((new policy).run calls).2.call (.drainDue now) = (due, s') := hdrain
    refine ⟨due, ⟨_, hpending.symm⟩, ?_⟩
    rw [run_concat, hknown, hcall]

/-- Two reports of one key, a stall, and a draining between two due times. -/
def sampleCalls : List (Call ℕ String) :=
  [.discover 1 "a" ⟨0⟩, .discover 2 "b" ⟨6⟩, .discover 1 "c" ⟨6⟩, .drainDue ⟨7⟩,
    .setPolicy .stalled, .drainDue ⟨100⟩, .setPolicy .immediate, .discover 2 "d" ⟨100⟩]

theorem lag_scheduler_delivers_sample : Delivers (.fixed ⟨5⟩) sampleCalls ∧
    ((new (.fixed ⟨5⟩)).run sampleCalls).1.map (fun d => (d.key, d.event)) = [(1, "a")] :=
  ⟨lag_scheduler_delivers (.fixed ⟨5⟩) sampleCalls (by decide), by decide⟩

end LagScheduler

end DevReplicator
