import MtcCa.Replicator.S3

/-! Runs of both pollers with failing requests: which queued changes are accounted for. -/
namespace DevReplicator

open Cloud Cloud.Dynamo

variable {R : Runtime}

/-- A DynamoDB poller with its target and the ledger of its changes. -/
structure DdbLink where
  poller : DdbPoller
  target : Table
  ledger : Ledger DdbKey DdbChange

/-- What the link loop and the control endpoint do to a poller. -/
inductive DdbAction where
  | discover (now : SystemTime) (pages : List (Except ReplicatorError (List ScannedItem)))
  | applyDue (now : SystemTime) (fate : DdbKey → Fate)
  | setLagPolicy (policy : LagPolicy)

namespace DdbLink

def new (initialLag : LagPolicy) (target : Table) : DdbLink := ⟨.new initialLag, target, .empty⟩

def step (R : Runtime) (link : DdbLink) : DdbAction → DdbLink
  | .discover now pages =>
    let (_, poller) := link.poller.discover R now pages
    ⟨poller, link.target, link.ledger.recordQueued link.poller.scheduler poller.scheduler⟩
  | .applyDue now fate =>
    let (_, attempts, poller, target) := link.poller.applyDue R now fate link.target
    ⟨poller, target, link.ledger.recordAttempts attempts⟩
  | .setLagPolicy policy => { link with poller := link.poller.setLagPolicy policy }

def run (R : Runtime) (link : DdbLink) (actions : List DdbAction) : DdbLink :=
  actions.foldl (step R) link

/-- The ledger is that of the poller. -/
def Matches (link : DdbLink) : Prop := link.ledger.Matches link.poller.scheduler

/-- No queued change is lost and the published count is right. -/
def Accounted (link : DdbLink) : Prop := link.ledger.Accounted link.poller.scheduler

/-- The request of every change that this action takes off the queue is answered. -/
def Answers (link : DdbLink) : DdbAction → Prop
  | .applyDue now fate =>
    ∀ d ∈ (link.poller.scheduler.drainDue now).1, fate d.key = .delivered
  | _ => True

/-- No request of the run fails. -/
def AllAnswered (R : Runtime) : DdbLink → List DdbAction → Prop
  | _, [] => True
  | link, a :: actions => link.Answers a ∧ AllAnswered R (link.step R a) actions

end DdbLink

/-- What became of the changes of a pass is what the requests gave. -/
theorem forall_applyAll_iff {K E W : Type} {applyOne : Discovered K E → W → Outcome × W}
    {P : Outcome → Prop} {Q : Discovered K E → Prop} (h : ∀ d w, P (applyOne d w).1 ↔ Q d)
    (due : List (Discovered K E)) (target : W) :
    (∀ a ∈ (applyAll applyOne due target).1, P a.2) ↔ ∀ d ∈ due, Q d := by
  induction due generalizing target with
  | nil => simp [applyAll]
  | cons d due ih => simp only [applyAll, List.forall_mem_cons, h, ih]

theorem unfailed_iff {K E : Type} {a : Discovered K E × Outcome} :
    Ledger.unfailed a = true ↔ ¬ ∃ written, a.2 = .failed written := by
  unfold Ledger.unfailed
  split <;> simp_all

namespace DdbLink

variable {link : DdbLink} {a : DdbAction}

theorem matches_new (initialLag : LagPolicy) (target : Table) : (new initialLag target).Matches :=
  Ledger.matches_new initialLag

theorem matches_step (h : link.Matches) : (link.step R a).Matches := by
  cases a with
  | discover now pages =>
    have hoffers := Ledger.Matches.offerAll h now (link.poller.offers R pages)
    rw [← DdbPoller.scheduler_discover] at hoffers
    exact hoffers
  | applyDue now fate => exact h.drainDue rfl map_fst_applyAll
  | setLagPolicy policy => exact h.setPolicy policy

theorem matches_run (h : link.Matches) (actions : List DdbAction) :
    (link.run R actions).Matches := by
  induction actions generalizing link with
  | nil => exact h
  | cons a actions ih => exact ih (matches_step h)

/-- The attempts that a step adds are unfailed exactly when its requests are answered. -/
theorem unfailed_step :
    (∀ x ∈ (link.step R a).ledger.attempts, Ledger.unfailed x = true) ↔
      (∀ x ∈ link.ledger.attempts, Ledger.unfailed x = true) ∧ link.Answers a := by
  cases a with
  | discover now pages => exact (and_iff_left trivial).symm
  | applyDue now fate =>
    refine List.forall_mem_append.trans (and_congr_right' ?_)
    simp only [unfailed_iff]
    refine forall_applyAll_iff (P := fun o => ¬ ∃ written, o = .failed written) ?_ _ _
    intro d w
    rw [DdbPoller.applyOne_failed_iff, not_not]
  | setLagPolicy policy => exact (and_iff_left trivial).symm

theorem unfailed_run (actions : List DdbAction) :
    (∀ x ∈ (link.run R actions).ledger.attempts, Ledger.unfailed x = true) ↔
      (∀ x ∈ link.ledger.attempts, Ledger.unfailed x = true) ∧ AllAnswered R link actions := by
  induction actions generalizing link with
  | nil => exact (and_iff_left trivial).symm
  | cons a actions ih => exact ih.trans ((and_congr_left' unfailed_step).trans and_assoc)

end DdbLink

/-- An S3 poller with both its buckets and the ledger of its changes. -/
structure S3Link where
  poller : S3Poller
  source : S3Bucket
  target : S3Bucket
  ledger : Ledger S3Key S3VersionEvent

inductive S3Action where
  /-- A client of the source puts an object or deletes a key. -/
  | change (entry : S3Entry)
  | discover (now : SystemTime) (pages : List (Except ReplicatorError ListPage))
  | applyDue (now : SystemTime) (freshId : S3Key → String) (fate : S3Key → S3Fate)
  | setLagPolicy (policy : LagPolicy)

namespace S3Link

def new (initialLag : LagPolicy) (source target : S3Bucket) : S3Link :=
  ⟨.new initialLag, source, target, .empty⟩

def step (link : S3Link) : S3Action → S3Link
  | .change entry => { link with source := link.source ++ [entry] }
  | .discover now pages =>
    let (_, poller) := link.poller.discover now pages
    { link with
      poller := poller
      ledger := link.ledger.recordQueued link.poller.scheduler poller.scheduler }
  | .applyDue now freshId fate =>
    let (_, attempts, poller, target) :=
      link.poller.applyDue now link.source freshId fate link.target
    ⟨poller, link.source, target, link.ledger.recordAttempts attempts⟩
  | .setLagPolicy policy => { link with poller := link.poller.setLagPolicy policy }

def run (link : S3Link) (actions : List S3Action) : S3Link := actions.foldl step link

def Matches (link : S3Link) : Prop := link.ledger.Matches link.poller.scheduler

def Accounted (link : S3Link) : Prop := link.ledger.Accounted link.poller.scheduler

/-- The requests of every change that this action takes off the queue are answered: the write,
and for a version the read of its content. -/
def Answers (link : S3Link) : S3Action → Prop
  | .applyDue now _ fate =>
    ∀ d ∈ (link.poller.scheduler.drainDue now).1, (fate d.key).write = .delivered ∧
      (d.event.isDeleteMarker = false → (fate d.key).getObject = true ∧
        S3Poller.getObject link.source d.event ≠ none)
  | _ => True

def AllAnswered : S3Link → List S3Action → Prop
  | _, [] => True
  | link, a :: actions => link.Answers a ∧ AllAnswered (link.step a) actions

variable {link : S3Link} {a : S3Action}

theorem matches_new (initialLag : LagPolicy) (source target : S3Bucket) :
    (new initialLag source target).Matches :=
  Ledger.matches_new initialLag

theorem matches_step (h : link.Matches) : (link.step a).Matches := by
  cases a with
  | change entry => exact h
  | discover now pages =>
    have hoffers := Ledger.Matches.offerAll h now
      ((S3Poller.readPages pages).flatMap S3Poller.pageOffers)
    rw [← S3Poller.scheduler_discover] at hoffers
    exact hoffers
  | applyDue now freshId fate => exact h.drainDue rfl map_fst_applyAll
  | setLagPolicy policy => exact h.setPolicy policy

theorem matches_run (h : link.Matches) (actions : List S3Action) : (link.run actions).Matches := by
  induction actions generalizing link with
  | nil => exact h
  | cons a actions ih => exact ih (matches_step h)

theorem unfailed_step :
    (∀ x ∈ (link.step a).ledger.attempts, Ledger.unfailed x = true) ↔
      (∀ x ∈ link.ledger.attempts, Ledger.unfailed x = true) ∧ link.Answers a := by
  cases a with
  | change entry => exact (and_iff_left trivial).symm
  | discover now pages => exact (and_iff_left trivial).symm
  | applyDue now freshId fate =>
    refine List.forall_mem_append.trans (and_congr_right' ?_)
    simp only [unfailed_iff]
    refine forall_applyAll_iff (P := fun o => ¬ ∃ written, o = .failed written) ?_ _ _
    intro d w
    rw [S3Poller.applyOne_failed_iff, not_or, not_not, not_and, not_or, Bool.not_eq_false]
  | setLagPolicy policy => exact (and_iff_left trivial).symm

theorem unfailed_run (actions : List S3Action) :
    (∀ x ∈ (link.run actions).ledger.attempts, Ledger.unfailed x = true) ↔
      (∀ x ∈ link.ledger.attempts, Ledger.unfailed x = true) ∧ AllAnswered link actions := by
  induction actions generalizing link with
  | nil => exact (and_iff_left trivial).symm
  | cons a actions ih => exact ih.trans ((and_congr_left' unfailed_step).trans and_assoc)

end S3Link

/-- In every run of either poller the changes are accounted for exactly when no request made
for a change that was due has failed. -/
theorem accounted_iff_allAnswered (R : Runtime) (initialLag : LagPolicy) (target : Table)
    (actions : List DdbAction) (source replica : S3Bucket) (s3Actions : List S3Action) :
    (((DdbLink.new initialLag target).run R actions).Accounted ↔
      DdbLink.AllAnswered R (.new initialLag target) actions) ∧
    (((S3Link.new initialLag source replica).run s3Actions).Accounted ↔
      S3Link.AllAnswered (.new initialLag source replica) s3Actions) := by
  refine ⟨?_, ?_⟩
  · have hmatches := DdbLink.matches_run (R := R) (DdbLink.matches_new initialLag target) actions
    refine hmatches.accounted_iff.trans ((DdbLink.unfailed_run actions).trans ?_)
    exact and_iff_right (fun _ h => absurd h List.not_mem_nil)
  · have hmatches := S3Link.matches_run (S3Link.matches_new initialLag source replica) s3Actions
    refine hmatches.accounted_iff.trans ((S3Link.unfailed_run s3Actions).trans ?_)
    exact and_iff_right (fun _ h => absurd h List.not_mem_nil)

/-- One item is discovered, its write is lost on the way, and the next cycle sees it again. -/
def droppedWrite : List DdbAction :=
  [.discover ⟨0⟩ [.ok [sampleScanned ⟨"log#a", "lease"⟩ "1"]], .applyDue ⟨1⟩ (fun _ => .dropped),
    .discover ⟨2⟩ [.ok [sampleScanned ⟨"log#a", "lease"⟩ "1"]], .applyDue ⟨3⟩ (fun _ => .delivered)]

/-- The change is gone: not pending, not on the target, yet counted as applied. -/
theorem dropped_write_is_lost :
    let link := (DdbLink.new .immediate .empty).run plainRuntime droppedWrite
    link.poller.pendingLen = 0 ∧ link.target.keys = ∅ ∧ link.ledger.queued.length = 1 ∧
      (link.poller.scheduler.status ⟨4⟩).applied = 1 ∧ ¬ link.Accounted := by
  refine ⟨by decide +kernel, by decide +kernel, by decide +kernel, by decide +kernel, ?_⟩
  intro hacc
  exact absurd hacc.count (by decide +kernel)

end DevReplicator
