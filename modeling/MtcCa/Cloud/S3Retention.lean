import MtcCa.Cloud.S3ObjectStore
import MtcCa.Lib.Transition

/-! Any number of clients against one bucket, their requests interleaved. A retained object
stays what its key reads as, unless an overwriting put lands on it. -/
namespace Cloud.S3ObjectStore

open S3 (Bucket Version)
open Transition

/-- A method between its two requests. -/
inductive Pending where
  | overwrite (key : String) (data : Blob)
  | delete (key : String) (versionId : ℕ)
  | extend (key : String) (newRetainUntil : SystemTime)

/-- The bucket, the service's clock and the methods in flight. -/
structure World where
  bucket : Bucket
  now : SystemTime
  pending : FiniteMap ℕ Pending

def World.initial : World := ⟨Bucket.empty, ⟨0⟩, FiniteMap.empty⟩

/-- One request of a client, or the passing of time. -/
inductive Event where
  | tick (now : SystemTime)
  | putIfNotExists (key : String) (data : Blob)
  | putWithRetention (key : String) (data : Blob) (retainUntil : SystemTime)
      (reply : Except CloudError Unit)
  | overwriteCheck (task : ℕ) (key : String) (data : Blob)
  | overwriteWrite (task : ℕ)
  | deleteHead (task : ℕ) (key : String)
  | deleteVersion (task : ℕ)
  | extendCheck (task : ℕ) (key : String) (newRetainUntil : SystemTime)
  | extendWrite (task : ℕ)
  | get (key : String) (reply : Except CloudError Blob)

/-- A task waits for its second request, unless the first one ended it. -/
def World.await (w : World) (task : ℕ) (passed : Bool) (p : Pending) : World :=
  if passed then { w with pending := w.pending.insert task p } else w

/-- A task has sent its second request. -/
def World.finish (w : World) (task : ℕ) (bucket : Bucket) : World :=
  { w with bucket := bucket, pending := w.pending.erase task }

inductive Step (w : World) : Event → World → Prop where
  | tick {now : SystemTime} : w.now ≤ now → Step w (.tick now) { w with now := now }
  | putIfNotExists {key : String} {data : Blob} :
      Step w (.putIfNotExists key data)
        { w with bucket := (putIfNotExists w.bucket w.now key data).2 }
  | putWithRetention {key : String} {data : Blob} {T : SystemTime} :
      Step w (.putWithRetention key data T (putWithRetention w.bucket w.now key data T).1)
        { w with bucket := (putWithRetention w.bucket w.now key data T).2 }
  | overwriteCheck {task : ℕ} {key : String} {data : Blob} : w.pending.get? task = none →
      Step w (.overwriteCheck task key data)
        (w.await task (overwriteCheck w.bucket key).isOk (.overwrite key data))
  | overwriteWrite {task : ℕ} {key : String} {data : Blob} :
      w.pending.get? task = some (.overwrite key data) →
      Step w (.overwriteWrite task)
        (w.finish task (overwriteWrite w.bucket w.now key data).2)
  | deleteHead {task : ℕ} {key : String} {versionId : ℕ} : w.pending.get? task = none →
      deleteHead w.bucket key = .ok versionId →
      Step w (.deleteHead task key) (w.await task true (.delete key versionId))
  | deleteMissing {task : ℕ} {key : String} {e : CloudError} : w.pending.get? task = none →
      deleteHead w.bucket key = .error e → Step w (.deleteHead task key) w
  | deleteVersion {task : ℕ} {key : String} {versionId : ℕ} :
      w.pending.get? task = some (.delete key versionId) →
      Step w (.deleteVersion task)
        (w.finish task (deleteVersion w.bucket w.now key versionId).2)
  | extendCheck {task : ℕ} {key : String} {T : SystemTime} : w.pending.get? task = none →
      Step w (.extendCheck task key T)
        (w.await task (extendCheck w.bucket key T).isOk (.extend key T))
  | extendWrite {task : ℕ} {key : String} {T : SystemTime} :
      w.pending.get? task = some (.extend key T) →
      Step w (.extendWrite task) (w.finish task (extendWrite w.bucket w.now key T).2)
  | get {key : String} : Step w (.get key (get w.bucket key)) w

/-- The write of an overwriting put finds no current version inside its retention window. -/
def Unlocked (w : World) : Event → Prop
  | .overwriteWrite task => ∀ key data v, w.pending.get? task = some (.overwrite key data) →
      w.bucket.current key = some v → ¬ v.Active w.now
  | _ => True

/-- A step whose overwriting put, if it is one, meets the condition. -/
def UnlockedStep (w : World) (ev : Event) (w' : World) : Prop := Unlocked w ev ∧ Step w ev w'

variable {w w' : World} {ev : Event} {events : List Event} {key key' : String} {data : Blob}
  {now T : SystemTime} {next i : ℕ} {l l' : List Version} {b : Bucket}

/-- Everything a step can do to the versions of one key. -/
inductive Change (now : SystemTime) (next : ℕ) (l : List Version) : List Version → Prop where
  | same : Change now next l l
  | pushed {v : Version} : (∀ u, l.head? = some u → ¬ u.Active now) → v.id = next →
      Change now next l (v :: l)
  | removed {i : ℕ} : (∀ v ∈ l, v.id = i → ¬ v.Active now) →
      Change now next l (l.filter (fun v => v.id ≠ i))
  | extended {u : Version} {rest : List Version} {T : SystemTime} : l = u :: rest →
      (∀ T', u.retainUntil = some T' → T' ≤ T) →
      Change now next l ({ u with retainUntil := some T } :: rest)

/-- What is known about version `i`, created with `data` and locked until `T`: while its lock
is active it is the newest, and the lock is active at least until `T`. -/
structure Kept (i : ℕ) (data : Blob) (T now : SystemTime) (l : List Version) : Prop where
  data_eq : ∀ v ∈ l, v.id = i → v.data = data
  newest : ∀ v ∈ l, v.id = i → v.Active now → l.head? = some v
  locked : now < T → ∃ v T', l.head? = some v ∧ v.id = i ∧ v.retainUntil = some T' ∧ T ≤ T'

theorem Kept.later {now' : SystemTime} (h : Kept i data T now l) (hle : now ≤ now') :
    Kept i data T now' l := by
  refine ⟨h.data_eq, ?_, fun hlt => h.locked (lt_of_le_of_lt hle hlt)⟩
  rintro v hv hid ⟨T', hT', hlt⟩
  exact h.newest v hv hid ⟨T', hT', lt_of_le_of_lt hle hlt⟩

theorem Kept.pushed (h : Kept i data T now l) {v : Version} (hi : i < v.id)
    (hfree : ∀ u, l.head? = some u → ¬ u.Active now) : Kept i data T now (v :: l) := by
  have hmem : ∀ u ∈ v :: l, u.id = i → u ∈ l := by
    intro u hu hid
    rcases List.mem_cons.mp hu with rfl | hu
    · omega
    · exact hu
  refine ⟨?_, ?_, ?_⟩
  · intro u hu hid
    exact h.data_eq u (hmem u hu hid) hid
  · intro u hu hid hactive
    exact absurd hactive (hfree u (h.newest u (hmem u hu hid) hid hactive))
  · intro hlt
    obtain ⟨u, T', hhead, -, hT', hle⟩ := h.locked hlt
    exact absurd ⟨T', hT', lt_of_lt_of_le hlt hle⟩ (hfree u hhead)

theorem head?_filter_of_ne {v : Version} {j : ℕ} (h : l.head? = some v) (hne : v.id ≠ j) :
    (l.filter (fun u => u.id ≠ j)).head? = some v := by
  obtain ⟨rest, rfl⟩ := List.head?_eq_some_iff.mp h
  rw [List.filter_cons_of_pos (by simpa using hne), List.head?_cons]

theorem Kept.removed (h : Kept i data T now l) {j : ℕ}
    (hfree : ∀ v ∈ l, v.id = j → ¬ v.Active now) :
    Kept i data T now (l.filter (fun v => v.id ≠ j)) := by
  refine ⟨?_, ?_, ?_⟩
  · intro v hv hid
    exact h.data_eq v (List.mem_of_mem_filter hv) hid
  · intro v hv hid hactive
    have hmem := List.mem_of_mem_filter hv
    refine head?_filter_of_ne (h.newest v hmem hid hactive) ?_
    intro hj
    exact hfree v hmem hj hactive
  · intro hlt
    obtain ⟨v, T', hhead, hid, hT', hle⟩ := h.locked hlt
    refine ⟨v, T', head?_filter_of_ne hhead ?_, hid, hT', hle⟩
    intro hj
    exact hfree v (List.mem_of_mem_head? hhead) hj ⟨T', hT', lt_of_lt_of_le hlt hle⟩

theorem Kept.extended {u : Version} {rest : List Version} {T' : SystemTime}
    (h : Kept i data T now (u :: rest)) (hids : ((u :: rest).map Version.id).Pairwise (· > ·))
    (hgrow : ∀ S, u.retainUntil = some S → S ≤ T') :
    Kept i data T now ({ u with retainUntil := some T' } :: rest) := by
  refine ⟨?_, ?_, ?_⟩
  · intro v hv hid
    rcases List.mem_cons.mp hv with rfl | hv
    · exact h.data_eq u List.mem_cons_self hid
    · exact h.data_eq v (List.mem_cons_of_mem _ hv) hid
  · intro v hv hid hactive
    rcases List.mem_cons.mp hv with rfl | hv
    · rfl
    · have hhead := h.newest v (List.mem_cons_of_mem _ hv) hid hactive
      obtain rfl : u = v := Option.some.inj hhead
      rw [List.map_cons] at hids
      exact absurd ((List.pairwise_cons.mp hids).1 u.id (List.mem_map_of_mem hv)) (lt_irrefl _)
  · intro hlt
    obtain ⟨v, S, hhead, hid, hS, hle⟩ := h.locked hlt
    obtain rfl : u = v := Option.some.inj hhead
    exact ⟨_, T', rfl, hid, rfl, le_trans hle (hgrow S hS)⟩

theorem kept_change (h : Change now next l l') (hids : (l.map Version.id).Pairwise (· > ·))
    (hi : i < next) (hk : Kept i data T now l) : Kept i data T now l' := by
  cases h with
  | same => exact hk
  | pushed hfree hid => exact hk.pushed (hid ▸ hi) hfree
  | removed hfree => exact hk.removed hfree
  | extended heq hgrow =>
    subst heq
    exact hk.extended hids hgrow

/-- Everything a request can do to the bucket. -/
structure Evolves (b : Bucket) (now : SystemTime) (b' : Bucket) : Prop where
  nextId_le : b.nextId ≤ b'.nextId
  change : ∀ key, Change now b.nextId (b.stack key) (b'.stack key)

theorem Evolves.refl : Evolves b now b := ⟨le_refl _, fun _ => .same⟩

theorem evolves_push {r : Option SystemTime}
    (hfree : ∀ u, b.current key = some u → ¬ u.Active now) :
    Evolves b now (b.push key data now r) := by
  refine ⟨Nat.le_succ _, ?_⟩
  intro key'
  rw [Bucket.stack_push]
  split
  · next heq =>
    subst heq
    exact .pushed hfree rfl
  · exact .same

theorem evolves_putObject {ifNoneMatch : Bool} {r : Option SystemTime}
    (hfree : ifNoneMatch = false → ∀ u, b.current key = some u → ¬ u.Active now) :
    Evolves b now (S3.putObject b now key data ifNoneMatch r).2 := by
  unfold S3.putObject
  split
  · exact .refl
  · next hcond =>
    split
    · exact .refl
    · apply evolves_push
      intro u hu
      cases ifNoneMatch with
      | true => exact absurd ⟨rfl, by rw [hu]; rfl⟩ hcond
      | false => exact hfree rfl u hu

theorem evolves_deleteObject {versionId : ℕ} :
    Evolves b now (S3.deleteObject b now key versionId).2 := by
  unfold S3.deleteObject
  split
  · exact .refl
  · next hcond =>
    refine ⟨le_refl _, ?_⟩
    intro key'
    rw [Bucket.stack_remove]
    split
    · next heq =>
      subst heq
      refine .removed ?_
      intro v hv hid hactive
      exact hcond ⟨v, hv, hid, hactive⟩
    · exact .same

theorem evolves_putObjectRetention : Evolves b now (S3.putObjectRetention b now key T).2 := by
  unfold S3.putObjectRetention
  cases hv : b.current key with
  | none => exact .refl
  | some v =>
    dsimp only
    split
    · exact .refl
    split
    · exact .refl
    · next hgrow =>
      refine ⟨le_refl _, ?_⟩
      intro key'
      rw [Bucket.stack_retain]
      split
      · next heq =>
        subst heq
        obtain ⟨rest, hstack⟩ := Bucket.current_eq_some_iff.mp hv
        rw [hstack]
        refine .extended rfl ?_
        intro T' hT'
        exact not_lt.mp (fun hlt => hgrow ⟨T', hT', hlt⟩)
      · exact .same

theorem evolves_step (h : UnlockedStep w ev w') : Evolves w.bucket w.now w'.bucket := by
  obtain ⟨hfree, hstep⟩ := h
  have hawait : ∀ task passed p, (w.await task passed p).bucket = w.bucket := by
    intro task passed p
    unfold World.await
    split <;> rfl
  cases hstep with
  | tick => exact .refl
  | putIfNotExists => exact evolves_putObject (by simp)
  | putWithRetention => exact evolves_putObject (by simp)
  | overwriteCheck =>
    rw [hawait]
    exact .refl
  | @overwriteWrite _ key data hp =>
    show Evolves w.bucket w.now (S3.putObject w.bucket w.now key data false none).2
    exact evolves_putObject (fun _ u hu => hfree key data u hp hu)
  | deleteHead =>
    rw [hawait]
    exact .refl
  | deleteMissing => exact .refl
  | deleteVersion => exact evolves_deleteObject
  | extendCheck =>
    rw [hawait]
    exact .refl
  | extendWrite => exact evolves_putObjectRetention
  | get => exact .refl

theorem now_step (h : Step w ev w') : w.now ≤ w'.now := by
  cases h with
  | tick hle => exact hle
  | overwriteCheck | deleteHead | extendCheck =>
    unfold World.await
    split <;> exact le_refl _
  | _ => exact le_refl _

theorem kept_step (h : UnlockedStep w ev w') (hi : i < w.bucket.nextId)
    (hk : Kept i data T w.now (w.bucket.stack key)) :
    i < w'.bucket.nextId ∧ Kept i data T w'.now (w'.bucket.stack key) := by
  have hevolves := evolves_step h
  refine ⟨lt_of_lt_of_le hi hevolves.nextId_le, ?_⟩
  have hids := (List.pairwise_cons.mp (w.bucket.stack_ordered key)).2
  exact (kept_change (hevolves.change key) hids hi hk).later (now_step h.2)

theorem kept_trace (h : Trace UnlockedStep w events w') (hi : i < w.bucket.nextId)
    (hk : Kept i data T w.now (w.bucket.stack key)) :
    Kept i data T w'.now (w'.bucket.stack key) := by
  have hinv : i < w'.bucket.nextId ∧ Kept i data T w'.now (w'.bucket.stack key) :=
    h.invariant (P := fun w => i < w.bucket.nextId ∧ Kept i data T w.now (w.bucket.stack key))
      (fun _ _ _ hstep hs => kept_step hstep hs.1 hs.2) ⟨hi, hk⟩
  exact hinv.2

/-- A successful retained put creates the only version of its key. -/
theorem kept_of_putWithRetention
    (h : Step w (.putWithRetention key data T (.ok ())) w') :
    w.bucket.nextId < w'.bucket.nextId ∧
      Kept w.bucket.nextId data T w'.now (w'.bucket.stack key) := by
  generalize hev : Event.putWithRetention key data T (.ok ()) = ev at h
  cases h with
  | putWithRetention =>
    obtain ⟨rfl, rfl, rfl, hok⟩ := Event.putWithRetention.inj hev
    have hvacant : w.bucket.current key = none ∧
        (S3.putObject w.bucket w.now key data true (some T)).2 =
          w.bucket.push key data w.now (some T) := by
      simp only [putWithRetention, S3.putObject] at hok ⊢
      split at hok
      · cases hok
      · next hcond =>
        split at hok
        · cases hok
        · next hfuture =>
          rw [if_neg hcond, if_neg hfuture]
          refine ⟨?_, rfl⟩
          cases hcurrent : w.bucket.current key with
          | none => rfl
          | some v => exact absurd ⟨trivial, by rw [hcurrent]; rfl⟩ hcond
    have hstack : (putWithRetention w.bucket w.now key data T).2.stack key =
        [⟨w.bucket.nextId, data, w.now, some T⟩] := by
      simp only [putWithRetention, Prod.map, id, hvacant.2]
      rw [Bucket.stack_push, if_pos rfl, Bucket.current_eq_none_iff.mp hvacant.1]
    refine ⟨?_, ?_⟩
    · simp only [putWithRetention, Prod.map, id, hvacant.2]
      exact Nat.lt_succ_self _
    · rw [hstack]
      refine ⟨?_, ?_, fun _ => ⟨_, T, rfl, rfl, rfl, le_refl T⟩⟩
      · intro v hv _
        rw [List.mem_singleton.mp hv]
      · intro v hv _ _
        rw [List.mem_singleton.mp hv]
        rfl
  | _ => cases hev

/-- The version is inside its retention window. -/
def RetentionActive (w : World) (key : String) (id : ℕ) : Prop :=
  ∃ v ∈ w.bucket.stack key, v.id = id ∧ v.Active w.now

theorem get_of_kept (hk : Kept i data T w.now (w.bucket.stack key))
    (hactive : w.now < T ∨ RetentionActive w key i) : get w.bucket key = .ok data := by
  have hcurrent : ∃ v, w.bucket.current key = some v ∧ v.id = i := by
    rcases hactive with hlt | ⟨v, hv, hid, hactive⟩
    · obtain ⟨v, -, hhead, hid, -⟩ := hk.locked hlt
      exact ⟨v, hhead, hid⟩
    · exact ⟨v, hk.newest v hv hid hactive, hid⟩
  obtain ⟨v, hv, hid⟩ := hcurrent
  have hdata := hk.data_eq v (List.mem_of_mem_head? hv) hid
  simp only [get, S3.getObject, hv, hdata]
  rfl

/-- In every run in which no overwriting put lands on a locked version, a get of a key answers
with the bytes retained there, while the retention asked for, or the version's own after
extensions, is active. -/
theorem retained_object_readable {w₁ w₂ w₃ w₄ : World} {key : String} {data : Blob}
    {T : SystemTime} {events : List Event} {reply : Except CloudError Blob}
    (hput : Step w₁ (.putWithRetention key data T (.ok ())) w₂)
    (hrun : Trace UnlockedStep w₂ events w₃) (hget : Step w₃ (.get key reply) w₄)
    (hactive : w₃.now < T ∨ RetentionActive w₃ key w₁.bucket.nextId) :
    reply = .ok data := by
  obtain ⟨hi, hk⟩ := kept_of_putWithRetention hput
  have hreply := get_of_kept (kept_trace hrun hi hk) hactive
  cases hget
  exact hreply

theorem length_retainedBlob_lt : ([1] : List UInt8).length < 2 ^ 63 := by decide

def retainedBlob : Blob := ⟨[1], length_retainedBlob_lt⟩

def otherBlob : Blob := ⟨[2], by decide⟩

/-- The bucket after `retainedBlob` was stored until instant 10. -/
def sampleRetained : Bucket :=
  (putWithRetention Bucket.empty ⟨0⟩ "tile/0" retainedBlob ⟨10⟩).2

/-! Another key is overwritten; a delete of the retained key is refused, and its retention extended
past instant 10. -/

def overwriting : World :=
  ⟨sampleRetained, ⟨0⟩, FiniteMap.empty.insert 0 (.overwrite "tile/1" otherBlob)⟩

def overwritten : World :=
  overwriting.finish 0 (overwriteWrite sampleRetained ⟨0⟩ "tile/1" otherBlob).2

def deleting : World := overwritten.await 1 true (.delete "tile/0" 0)

def deleteRefused : World :=
  deleting.finish 1 (deleteVersion overwritten.bucket ⟨0⟩ "tile/0" 0).2

def extending : World := deleteRefused.await 2 true (.extend "tile/0" ⟨20⟩)

def extended : World := extending.finish 2 (extendWrite deleteRefused.bucket ⟨0⟩ "tile/0" ⟨20⟩).2

def sampleRun : List Event :=
  [.overwriteCheck 0 "tile/1" otherBlob, .overwriteWrite 0, .deleteHead 1 "tile/0",
    .deleteVersion 1, .extendCheck 2 "tile/0" ⟨20⟩, .extendWrite 2, .tick ⟨15⟩]

theorem trace_sampleRun : Trace UnlockedStep ⟨sampleRetained, ⟨0⟩, FiniteMap.empty⟩ sampleRun
    { extended with now := ⟨15⟩ } := by
  have hchecked : (overwriteCheck sampleRetained "tile/1").isOk = true := by decide +kernel
  have hunlocked : Unlocked overwriting (.overwriteWrite 0) := by
    rintro key data v hpending hcurrent
    cases FiniteMap.get?_insert_self.symm.trans hpending
    cases hcurrent
  have hhead : deleteHead overwritten.bucket "tile/0" = .ok 0 := by decide +kernel
  have hextend : (extendCheck deleteRefused.bucket "tile/0" ⟨20⟩).isOk = true := by decide +kernel
  have h₁ : Step ⟨sampleRetained, ⟨0⟩, FiniteMap.empty⟩ (.overwriteCheck 0 "tile/1" otherBlob)
      overwriting := by
    have hstep : Step ⟨sampleRetained, ⟨0⟩, FiniteMap.empty⟩ (.overwriteCheck 0 "tile/1" otherBlob)
        _ := .overwriteCheck rfl
    rw [World.await, if_pos hchecked] at hstep
    exact hstep
  have h₂ : Step overwriting (.overwriteWrite 0) overwritten :=
    .overwriteWrite FiniteMap.get?_insert_self
  have h₃ : Step overwritten (.deleteHead 1 "tile/0") deleting := .deleteHead rfl hhead
  have h₄ : Step deleting (.deleteVersion 1) deleteRefused :=
    .deleteVersion FiniteMap.get?_insert_self
  have h₅ : Step deleteRefused (.extendCheck 2 "tile/0" ⟨20⟩) extending := by
    have hstep : Step deleteRefused (.extendCheck 2 "tile/0" ⟨20⟩) _ := .extendCheck rfl
    rw [hextend] at hstep
    exact hstep
  have h₆ : Step extending (.extendWrite 2) extended := .extendWrite FiniteMap.get?_insert_self
  have h₇ : Step extended (.tick ⟨15⟩) { extended with now := ⟨15⟩ } := .tick (by decide)
  exact .snoc (.snoc (.snoc (.snoc (.snoc (.snoc (.snoc .refl ⟨trivial, h₁⟩) ⟨hunlocked, h₂⟩)
    ⟨trivial, h₃⟩) ⟨trivial, h₄⟩) ⟨trivial, h₅⟩) ⟨trivial, h₆⟩) ⟨trivial, h₇⟩

theorem retained_object_readable_extended :
    get overwritten.bucket "tile/1" = .ok otherBlob ∧
      get extended.bucket "tile/0" = .ok retainedBlob := by
  have hput : Step World.initial (.putWithRetention "tile/0" retainedBlob ⟨10⟩ (.ok ()))
      ⟨sampleRetained, ⟨0⟩, FiniteMap.empty⟩ := Step.putWithRetention
  have hactive : RetentionActive { extended with now := ⟨15⟩ } "tile/0" 0 :=
    ⟨⟨0, retainedBlob, ⟨0⟩, some ⟨20⟩⟩, by decide +kernel, rfl, ⟨20⟩, rfl, by decide⟩
  exact ⟨by decide +kernel,
    retained_object_readable hput trace_sampleRun .get (Or.inr hactive)⟩

/-- An overwriting put whose retention read came first hides an object retained in between. -/
theorem racing_overwrite_hides_retained :
    ∃ w₁ w₂ w₃ w₄, Trace Step World.initial [.overwriteCheck 0 "tile/0" otherBlob] w₁ ∧
      Step w₁ (.putWithRetention "tile/0" retainedBlob ⟨10⟩ (.ok ())) w₂ ∧
      Trace Step w₂ [.overwriteWrite 0] w₃ ∧ Step w₃ (.get "tile/0" (.ok otherBlob)) w₄ ∧
      w₃.now < ⟨10⟩ ∧ otherBlob ≠ retainedBlob := by
  have hcheck : Step World.initial (.overwriteCheck 0 "tile/0" otherBlob)
      ⟨Bucket.empty, ⟨0⟩, FiniteMap.empty.insert 0 (.overwrite "tile/0" otherBlob)⟩ :=
    .overwriteCheck rfl
  have hput : Step ⟨Bucket.empty, ⟨0⟩, FiniteMap.empty.insert 0 (.overwrite "tile/0" otherBlob)⟩
      (.putWithRetention "tile/0" retainedBlob ⟨10⟩ (.ok ()))
      ⟨sampleRetained, ⟨0⟩, FiniteMap.empty.insert 0 (.overwrite "tile/0" otherBlob)⟩ :=
    Step.putWithRetention
  refine ⟨_, _, _, _, .snoc .refl hcheck, hput,
    .snoc .refl (.overwriteWrite FiniteMap.get?_insert_self), .get, by decide, by decide⟩

end Cloud.S3ObjectStore
