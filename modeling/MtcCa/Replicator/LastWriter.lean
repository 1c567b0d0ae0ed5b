import MtcCa.Replicator.Discovery

/-! What one batch of due changes leaves on the target. -/
namespace DevReplicator

open Cloud Cloud.Dynamo

/-- The changes of one key, in the order they are applied. -/
def changesOf (due : List (Discovered DdbKey DdbChange)) (key : PrimaryKey) : List DdbChange :=
  (due.map Discovered.event).filter (fun c => c.key = key)

def lastFor (due : List (Discovered DdbKey DdbChange)) (key : PrimaryKey) : Option DdbChange :=
  (changesOf due key).getLast?

/-- An item with the timestamp of its replication. -/
def stamp (now : SystemTime) (item : Attributes) : Attributes :=
  item.insert tsAttr (tsAttrValue now)

/-- What a change leaves at its key when it is written. -/
def DdbChange.left (now : SystemTime) (c : DdbChange) : Option Attributes :=
  c.value.map (stamp now)

def firstUpsert (changes : List DdbChange) : Option Attributes :=
  (changes.filterMap DdbChange.value).head?

/-- The batch keeps the last change when it keeps the first item: either all changes are
deletions, or the last is an item equal to the first one but for the timestamp. -/
def FirstStands (changes : List DdbChange) (last : DdbChange) : Prop :=
  match last.value with
  | none => ∀ c ∈ changes, c.value = none
  | some item => ∃ first, firstUpsert changes = some first ∧
      ∀ a, a ≠ tsAttr → first.get? a = item.get? a

section batch

variable {R : Runtime} {now : SystemTime} {target : Table} {key : PrimaryKey}
  {stored : Option Attributes} {c last : DdbChange} {changes : List DdbChange}
  {item item' : Attributes}

/-- One write, as its key sees it. -/
def writeAt (R : Runtime) (now : SystemTime) (stored : Option Attributes) (c : DdbChange) :
    Option Attributes :=
  if tsConditionHolds R stored (Nat.repr (millis now)) then c.left now else stored

theorem get?_write : (c.write (tsAttrValue now) target).get? key =
    if key = c.key then c.left now else target.get? key := by
  cases c with
  | upsert k item => exact FiniteMap.get?_insert
  | delete k => exact FiniteMap.get?_erase

theorem get?_applyOne : (applyOne R now .delivered c target).2.get? key =
    if c.key = key then writeAt R now (target.get? key) c else target.get? key := by
  change (if _ then c.write (tsAttrValue now) target else target).get? key = _
  unfold writeAt
  by_cases hkey : c.key = key
  · subst hkey
    rw [if_pos rfl]
    split
    · rw [get?_write, if_pos rfl]
    · rfl
  · rw [if_neg hkey]
    split
    · rw [get?_write, if_neg (Ne.symm hkey)]
    · rfl

/-- A batch acts on each key through the changes of that key alone. -/
theorem get?_applyAll (due : List (Discovered DdbKey DdbChange)) (target : Table) :
    (applyAll (fun item target => applyOne R now .delivered item.event target) due
      target).2.get? key = (changesOf due key).foldl (writeAt R now) (target.get? key) := by
  induction due generalizing target with
  | nil => rfl
  | cons d due ih =>
    refine (ih (applyOne R now .delivered d.event target).2).trans ?_
    rw [get?_applyOne, changesOf, changesOf, List.map_cons]
    by_cases hkey : d.event.key = key
    · rw [if_pos hkey, List.filter_cons_of_pos (by simpa using hkey), List.foldl_cons]
    · rw [if_neg hkey, List.filter_cons_of_neg (by simpa using hkey)]

/-- What was written at `now` is not older than `now`. -/
theorem tsConditionHolds_stamp :
    tsConditionHolds R (some (stamp now item)) (Nat.repr (millis now)) = false := by
  rw [tsConditionHolds, stamp, Option.bind_some, FiniteMap.get?_insert_self]
  exact (R.numberLt_repr _ _).trans (decide_eq_false (lt_irrefl _))

theorem foldl_writeAt_stamp :
    changes.foldl (writeAt R now) (some (stamp now item)) = some (stamp now item) := by
  induction changes with
  | nil => rfl
  | cons c changes ih =>
    rw [List.foldl_cons, writeAt, tsConditionHolds_stamp]
    exact ih

/-- The first item of a key in a batch shuts out everything behind it. -/
theorem foldl_writeAt (hstored : tsConditionHolds R stored (Nat.repr (millis now)) = true)
    (hne : changes ≠ []) :
    changes.foldl (writeAt R now) stored = (firstUpsert changes).map (stamp now) := by
  induction changes generalizing stored with
  | nil => exact absurd rfl hne
  | cons c changes ih =>
    rw [List.foldl_cons, writeAt, if_pos hstored, DdbChange.left]
    cases hvalue : c.value with
    | some item =>
      rw [firstUpsert, List.filterMap_cons_some hvalue]
      exact foldl_writeAt_stamp
    | none =>
      rw [firstUpsert, List.filterMap_cons_none hvalue]
      cases changes with
      | nil => rfl
      | cons c' changes => exact ih rfl (List.cons_ne_nil _ _)

theorem stamp_eq_iff : stamp now item = stamp now item' ↔
    ∀ a, a ≠ tsAttr → item.get? a = item'.get? a := by
  constructor
  · intro h a ha
    have hget := congrArg (fun m => m.get? a) h
    simpa only [stamp, FiniteMap.get?_insert_ne ha] using hget
  · intro h
    apply FiniteMap.ext
    intro a
    rw [stamp, stamp, FiniteMap.get?_insert, FiniteMap.get?_insert]
    split
    · rfl
    · next ha => exact h a ha

theorem firstStands_iff (now : SystemTime) :
    FirstStands changes last ↔ (firstUpsert changes).map (stamp now) = last.left now := by
  unfold FirstStands DdbChange.left
  cases last.value with
  | none =>
    simp only [Option.map_none, Option.map_eq_none_iff, firstUpsert, List.head?_eq_none_iff,
      List.filterMap_eq_nil_iff]
  | some item => simp only [Option.map_some, Option.map_eq_some_iff, stamp_eq_iff]

end batch

/-- A batch that finds only older timestamps on the target leaves there the last change of each
key exactly when, for each key, the first item of the batch is as good as its last change. -/
theorem last_change_wins_iff (R : Runtime) (p : DdbPoller) (now : SystemTime) (target : Table)
    (hold : ∀ key, tsConditionHolds R (target.get? key) (Nat.repr (millis now)) = true) :
    (∀ key last, lastFor (p.scheduler.drainDue now).1 key = some last →
      (p.applyDue R now (fun _ => .delivered) target).2.2.2.get? key = last.left now) ↔
    ∀ key last, lastFor (p.scheduler.drainDue now).1 key = some last →
      FirstStands (changesOf (p.scheduler.drainDue now).1 key) last := by
  refine forall₃_congr (fun key last hlast => ?_)
  have hne : changesOf (p.scheduler.drainDue now).1 key ≠ [] := by
    intro hnil
    rw [lastFor, hnil] at hlast
    cases hlast
  rw [firstStands_iff now, ← foldl_writeAt (hold key) hne, ← get?_applyAll]
  rfl

/-- A deletion of an item and the item made anew, due together. -/
def remade : DdbPoller where
  scheduler := ⟨.immediate, [⟨(⟨"log#a", "lease"⟩, deletedMark), .delete ⟨"log#a", "lease"⟩, ⟨0⟩⟩,
    ⟨(⟨"log#a", "lease"⟩, "f"),
      .upsert ⟨"log#a", "lease"⟩ (sampleItem ⟨"log#a", "lease"⟩ "2"), ⟨0⟩⟩], ∅⟩
  knownLiveKeys := ∅

/-- A target with the item as it was replicated before. -/
def replicated : Table :=
  FiniteMap.empty.insert ⟨"log#a", "lease"⟩ (stamp ⟨0⟩ (sampleItem ⟨"log#a", "lease"⟩ "1"))

theorem last_change_wins_remade :
    (remade.applyDue plainRuntime ⟨10 ^ 7⟩ (fun _ => .delivered) replicated).2.2.2.get?
      ⟨"log#a", "lease"⟩ = some (stamp ⟨10 ^ 7⟩ (sampleItem ⟨"log#a", "lease"⟩ "2")) := by
  refine (last_change_wins_iff plainRuntime remade ⟨10 ^ 7⟩ replicated ?_).mpr ?_
    ⟨"log#a", "lease"⟩ (.upsert ⟨"log#a", "lease"⟩ (sampleItem ⟨"log#a", "lease"⟩ "2")) rfl
  · intro key
    rw [replicated, FiniteMap.get?_insert]
    split
    · decide +kernel
    · rw [FiniteMap.get?_empty]
      rfl
  · intro key last hlast
    have hdue : changesOf (remade.scheduler.drainDue ⟨10 ^ 7⟩).1 key =
        [DdbChange.delete ⟨"log#a", "lease"⟩,
          .upsert ⟨"log#a", "lease"⟩ (sampleItem ⟨"log#a", "lease"⟩ "2")].filter
            (fun c => c.key = key) := rfl
    rw [lastFor, hdue] at hlast
    rw [hdue]
    by_cases hkey : (⟨"log#a", "lease"⟩ : PrimaryKey) = key
    · subst hkey
      cases hlast
      exact ⟨_, rfl, fun _ _ => rfl⟩
    · have hother : ¬ decide ((⟨"log#a", "lease"⟩ : PrimaryKey) = key) = true := by simpa using hkey
      rw [List.filter_cons_of_neg (by exact hother),
        List.filter_cons_of_neg (by exact hother)] at hlast
      cases hlast

/-- Two versions of an item that fall due together. -/
def burst : DdbLink :=
  observe plainRuntime (.fixed ⟨5⟩) .empty [.scan ⟨0⟩ (sampleScan "1"), .scan ⟨1⟩ (sampleScan "2")]

/-- The second version is the last one drained, but the first one stays on the target. -/
theorem burst_keeps_first :
    ¬ ∀ key last, lastFor (burst.poller.scheduler.drainDue ⟨10⟩).1 key = some last →
      (burst.poller.applyDue plainRuntime ⟨10⟩ (fun _ => .delivered) burst.target).2.2.2.get? key =
        last.left ⟨10⟩ := by
  intro h
  have hlast : ∃ last, lastFor (burst.poller.scheduler.drainDue ⟨10⟩).1 ⟨"log#a", "lease"⟩ =
      some last := Option.isSome_iff_exists.mp (by decide +kernel)
  obtain ⟨last, hlast⟩ := hlast
  have hvalue := congrArg sampleValue (h _ last hlast)
  have hsecond : (lastFor (burst.poller.scheduler.drainDue ⟨10⟩).1 ⟨"log#a", "lease"⟩).map
      (fun c => sampleValue (c.left ⟨10⟩)) = some (some "2") := by decide +kernel
  rw [hlast] at hsecond
  exact absurd (hvalue.trans (Option.some.inj hsecond)) (by decide +kernel)

end DevReplicator
