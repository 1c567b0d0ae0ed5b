import MtcCa.Cloud.ObjectStore
import MtcCa.Cloud.S3ObjectStore

/-! How far the S3 backend is the one-object-per-key store: it is as long as no delete meets a
key with more than one version. -/
namespace Cloud.S3ObjectStore

open S3 (Bucket Version)

variable {b : Bucket} {objects : Objects} {key : String} {data : Blob} {now : SystemTime}
  {c : ObjectCall} {opts : PutOptions} {calls : List (SystemTime × ObjectCall)}

/-- A version as the contract sees it. -/
def toObject (v : Version) : StoredObject := ⟨v.data, v.lastModified, v.retainUntil⟩

/-- The objects are the current versions, and no version carries a lock. -/
structure Views (b : Bucket) (objects : Objects) : Prop where
  get? : ∀ key, objects.get? key = (b.current key).map toObject
  unretained : ∀ key, ∀ v ∈ b.stack key, v.retainUntil = none

/-- A call of `ObjectStore`. -/
def Plain : ObjectCall → Prop
  | .put .. | .get .. | .head .. | .list .. | .delete .. => True
  | .putWithRetention .. | .extendRetention .. | .getRetention .. => False

theorem Views.current_unretained (h : Views b objects) {v : Version}
    (hv : b.current key = some v) : v.retainUntil = none := by
  obtain ⟨rest, hstack⟩ := Bucket.current_eq_some_iff.mp hv
  exact h.unretained key v (by rw [hstack]; exact List.mem_cons_self)

theorem isSome_get? (h : Views b objects) :
    (objects.get? key).isSome = (b.current key).isSome := by
  rw [h.get?, Option.isSome_map]

theorem views_push (h : Views b objects) :
    Views (b.push key data now none) (objects.insert key ⟨data, now, none⟩) := by
  constructor
  · intro key'
    unfold Bucket.current
    rw [FiniteMap.get?_insert, Bucket.stack_push]
    split
    · rfl
    · exact h.get? key'
  · intro key' v hv
    rw [Bucket.stack_push] at hv
    split at hv
    · rcases List.mem_cons.mp hv with rfl | hv
      · rfl
      · exact h.unretained key v hv
    · exact h.unretained key' v hv

theorem views_remove (h : Views b objects) {v : Version} (hstack : b.stack key = [v]) :
    Views (b.remove key v.id) (objects.erase key) := by
  constructor
  · intro key'
    unfold Bucket.current
    rw [FiniteMap.get?_erase, Bucket.stack_remove, Bucket.filter_newest hstack]
    split
    · rfl
    · exact h.get? key'
  · intro key' u hu
    rw [Bucket.stack_remove] at hu
    split at hu
    · exact h.unretained key u (List.mem_of_mem_filter hu)
    · exact h.unretained key' u hu

theorem not_active (h : Views b objects) (versionId : ℕ) :
    ¬ ∃ v ∈ b.stack key, v.id = versionId ∧ v.Active now := by
  rintro ⟨v, hv, -, T, hT, -⟩
  rw [h.unretained key v hv] at hT
  cases hT

theorem overwriteCheck_eq_ok (h : Views b objects) : overwriteCheck b key = .ok () := by
  unfold overwriteCheck currentRetention S3.getObjectRetention
  cases hv : b.current key with
  | none => rfl
  | some v =>
    simp only [h.current_unretained hv]
    rfl

theorem admits_eq_ok_of_views (h : Views b objects) :
    MemoryObjectStore.admits objects key now ⟨.overwrite⟩ = .ok () := by
  unfold MemoryObjectStore.admits
  cases hget : objects.get? key with
  | none => rfl
  | some object =>
    rw [h.get?] at hget
    obtain ⟨v, hv, rfl⟩ := Option.map_eq_some_iff.mp hget
    have hnone : (toObject v).retainUntil = none := h.current_unretained hv
    simp only [rejectIfRetained, hnone]

/-- Both backends give one answer and keep corresponding. -/
def Simulates (s : Except CloudError ObjectReply × Bucket)
    (m : Except CloudError ObjectReply × Objects) : Prop :=
  s.1 = m.1 ∧ Views s.2 m.2

theorem put_simulates (h : Views b objects) :
    Simulates (call b now (.put key data opts))
      (MemoryObjectStore.call objects now now (.put key data opts)) := by
  obtain ⟨mode⟩ := opts
  cases mode with
  | ifNotExists =>
    simp only [call, put, putIfNotExists, S3.putObject, MemoryObjectStore.call,
      MemoryObjectStore.put, MemoryObjectStore.admits, isSome_get? h]
    by_cases hv : (b.current key).isSome
    · simp only [hv, and_self, if_true]
      exact ⟨rfl, h⟩
    · simp only [hv]
      exact ⟨rfl, views_push h⟩
  | overwrite =>
    simp only [call, put, overwriteCheck_eq_ok h, MemoryObjectStore.call, MemoryObjectStore.put,
      admits_eq_ok_of_views h, overwriteWrite, S3.putObject]
    exact ⟨rfl, views_push h⟩

theorem delete_eq_of_current {v : Version} (h : Views b objects) (hv : b.current key = some v) :
    delete b now key = (.ok (), b.remove key v.id) := by
  simp only [delete, deleteHead, S3.headObject, hv]
  simp only [Except.mapError, Outcome.ok_bind, deleteVersion, S3.deleteObject,
    if_neg (not_active h v.id)]
  rfl

theorem delete_simulates (h : Views b objects) (hdepth : (b.stack key).length ≤ 1) :
    Simulates (call b now (.delete key))
      (MemoryObjectStore.call objects now now (.delete key)) := by
  have hget := h.get? key
  cases hv : b.current key with
  | none =>
    simp only [call, delete, deleteHead, S3.headObject, hv, MemoryObjectStore.call,
      MemoryObjectStore.delete, hget]
    exact ⟨rfl, h⟩
  | some v =>
    obtain ⟨rest, hstack⟩ := Bucket.current_eq_some_iff.mp hv
    have hrest : rest = [] := by
      rw [hstack, List.length_cons] at hdepth
      exact List.length_eq_zero_iff.mp (by omega)
    have hnone : (toObject v).retainUntil = none := h.current_unretained hv
    rw [hv] at hget
    simp only [call, delete_eq_of_current h hv, MemoryObjectStore.call, MemoryObjectStore.delete,
      hget, Option.map_some, rejectIfRetained, hnone]
    exact ⟨rfl, views_remove h (hrest ▸ hstack)⟩

theorem nonNegativeU64_length (data : Blob) :
    nonNegativeU64 (some (data.bytes.length : ℤ)) = sizeBytes data := by
  have hlt : data.bytes.length < 2 ^ 64 := lt_trans data.length_lt (by decide)
  rw [nonNegativeU64, if_pos (Int.natCast_nonneg _), sizeBytes, if_pos hlt, Int.toNat_natCast]

theorem get_simulates (h : Views b objects) :
    Simulates (call b now (.get key)) (MemoryObjectStore.call objects now now (.get key)) := by
  refine ⟨?_, h⟩
  simp only [call, get, S3.getObject, MemoryObjectStore.call, MemoryObjectStore.get, h.get?]
  cases b.current key <;> rfl

theorem head_simulates (h : Views b objects) :
    Simulates (call b now (.head key)) (MemoryObjectStore.call objects now now (.head key)) := by
  refine ⟨?_, h⟩
  simp only [call, head, S3.headObject, MemoryObjectStore.call, MemoryObjectStore.head, h.get?]
  cases b.current key with
  | none => rfl
  | some v =>
    simp only [Option.map_some, Except.mapError, Outcome.ok_bind, nonNegativeU64_length]
    rfl

section listing

variable {keyPrefix : String} {o : S3.ListedObject} {info : ObjectInfo}

theorem current_eq_some_iff_get? {v : Version} :
    b.current key = some v ↔ ∃ stack, b.versions.get? key = some stack ∧ stack.head? = some v := by
  unfold Bucket.current Bucket.stack
  cases b.versions.get? key <;> simp

theorem mem_currentObjects :
    o ∈ S3.currentObjects b keyPrefix ↔ ∃ key v, startsWith key keyPrefix = true ∧
      b.current key = some v ∧ o = ⟨some key, some v.data.bytes.length, some v.lastModified⟩ := by
  simp only [S3.currentObjects, List.mem_filterMap, List.mem_filter, FiniteMap.mem_toList,
    Option.map_eq_some_iff, current_eq_some_iff_get?]
  constructor
  · rintro ⟨⟨key, stack⟩, ⟨hget, hstart⟩, v, hv, rfl⟩
    exact ⟨key, v, hstart, ⟨stack, hget, hv⟩, rfl⟩
  · rintro ⟨key, v, hstart, ⟨stack, hget, hv⟩, rfl⟩
    exact ⟨(key, stack), ⟨hget, hstart⟩, v, hv, rfl⟩

theorem mem_listedOf_currentObjects :
    info ∈ listedOf (S3.currentObjects b keyPrefix) ↔ ∃ key v, startsWith key keyPrefix = true ∧
      b.current key = some v ∧ info = ⟨key, sizeBytes v.data, v.lastModified⟩ := by
  simp only [listedOf, List.mem_filterMap, mem_currentObjects, Option.map_eq_some_iff]
  constructor
  · rintro ⟨_, ⟨key, v, hstart, hv, rfl⟩, _, hkey, rfl⟩
    cases hkey
    exact ⟨key, v, hstart, hv, by simp only [nonNegativeU64_length]; rfl⟩
  · rintro ⟨key, v, hstart, hv, rfl⟩
    exact ⟨_, ⟨key, v, hstart, hv, rfl⟩, key, rfl, by simp only [nonNegativeU64_length]; rfl⟩

theorem sorted_listedOf_currentObjects :
    (listedOf (S3.currentObjects b keyPrefix)).Pairwise (fun x y => x.key < y.key) := by
  rw [listedOf, S3.currentObjects, List.filterMap_filterMap]
  refine List.Pairwise.filterMap _ ?_ (FiniteMap.toList_sorted.filter _)
  intro p q hlt x hx y hy
  obtain ⟨_, ho, hx⟩ := Option.bind_eq_some_iff.mp hx
  obtain ⟨v, -, rfl⟩ := Option.map_eq_some_iff.mp ho
  obtain ⟨_, ho', hy⟩ := Option.bind_eq_some_iff.mp hy
  obtain ⟨w, -, rfl⟩ := Option.map_eq_some_iff.mp ho'
  cases hx
  cases hy
  exact hlt

theorem mem_memory_list :
    info ∈ MemoryObjectStore.list objects keyPrefix ↔ ∃ key object,
      startsWith key keyPrefix = true ∧ objects.get? key = some object ∧
        info = ⟨key, sizeBytes object.data, object.lastModified⟩ := by
  simp only [MemoryObjectStore.list, List.mem_map, List.mem_filter, FiniteMap.mem_toList]
  constructor
  · rintro ⟨⟨key, object⟩, ⟨hget, hstart⟩, rfl⟩
    exact ⟨key, object, hstart, hget, rfl⟩
  · rintro ⟨key, object, hstart, hget, rfl⟩
    exact ⟨(key, object), ⟨hget, hstart⟩, rfl⟩

theorem listedOf_eq (h : Views b objects) :
    listedOf (S3.currentObjects b keyPrefix) = MemoryObjectStore.list objects keyPrefix := by
  refine FiniteMap.eq_of_sorted_of_mem_iff sorted_listedOf_currentObjects ?_ ?_
  · exact (FiniteMap.toList_sorted.filter _).map _ (fun _ _ hlt => hlt)
  · intro info
    simp only [mem_listedOf_currentObjects, mem_memory_list, h.get?, Option.map_eq_some_iff]
    constructor
    · rintro ⟨key, v, hstart, hv, rfl⟩
      exact ⟨key, toObject v, hstart, ⟨v, hv, rfl⟩, rfl⟩
    · rintro ⟨key, _, hstart, ⟨v, hv, rfl⟩, rfl⟩
      exact ⟨key, v, hstart, hv, rfl⟩

/-- The loop over the pages collects everything from the token on. -/
theorem listLoop_eq {fuel : ℕ} {token : Option ℕ} {listed : List ObjectInfo}
    (hfuel : ((S3.currentObjects b keyPrefix).drop (token.getD 0)).length < fuel) :
    listLoop b keyPrefix fuel token listed =
      listed ++ listedOf ((S3.currentObjects b keyPrefix).drop (token.getD 0)) := by
  induction fuel generalizing token listed with
  | zero => omega
  | succ fuel ih =>
    simp only [listLoop, S3.listObjectsV2]
    by_cases htrunc : S3.maxKeys < ((S3.currentObjects b keyPrefix).drop (token.getD 0)).length
    · have hrest : (S3.currentObjects b keyPrefix).drop (token.getD 0 + S3.maxKeys) =
          ((S3.currentObjects b keyPrefix).drop (token.getD 0)).drop S3.maxKeys :=
        (List.drop_drop ..).symm
      have hlen : ((S3.currentObjects b keyPrefix).drop
          ((some (token.getD 0 + S3.maxKeys)).getD 0)).length < fuel := by
        rw [Option.getD_some, hrest, List.length_drop]
        have : S3.maxKeys = 1000 := rfl
        omega
      simp only [htrunc, if_true]
      rw [ih hlen, Option.getD_some, hrest, List.append_assoc, listedOf, listedOf,
        ← List.filterMap_append, List.take_append_drop]
      rfl
    · simp only [htrunc, if_false]
      rfl

theorem length_currentObjects_le :
    (S3.currentObjects b keyPrefix).length ≤ b.versions.keys.card := by
  calc (S3.currentObjects b keyPrefix).length
      ≤ (b.versions.toList.filter (fun p => startsWith p.1 keyPrefix)).length :=
        List.length_filterMap_le _ _
    _ ≤ b.versions.toList.length := List.length_filter_le _ _
    _ ≤ b.versions.keys.card := FiniteMap.length_toList_le

theorem list_simulates (h : Views b objects) :
    Simulates (call b now (.list keyPrefix))
      (MemoryObjectStore.call objects now now (.list keyPrefix)) := by
  refine ⟨?_, h⟩
  have hloop : listLoop b keyPrefix (b.versions.keys.card + 1) none [] =
      listedOf (S3.currentObjects b keyPrefix) := by
    rw [listLoop_eq, Option.getD_none, List.drop_zero, List.nil_append]
    rw [Option.getD_none, List.drop_zero]
    exact Nat.lt_succ_of_le length_currentObjects_le
  have hsorted : (listedOf (S3.currentObjects b keyPrefix)).Pairwise (fun x y => x.key ≤ y.key) :=
    sorted_listedOf_currentObjects.imp le_of_lt
  have hlist : list b keyPrefix = MemoryObjectStore.list objects keyPrefix := by
    rw [list, hloop, hsorted.insertionSort_eq, listedOf_eq h]
  simp only [call, hlist, MemoryObjectStore.call]

end listing

/-- Every delete of the run meets a key with at most one version. -/
def ShallowDeletes (b : Bucket) : List (SystemTime × ObjectCall) → Prop
  | [] => True
  | (now, c) :: rest =>
    (∀ key, c = .delete key → (b.stack key).length ≤ 1) ∧ ShallowDeletes (call b now c).2 rest

/-- The run gives the replies of the one-object-per-key store, and a key is vacant after each
of its successful deletes. -/
def OneObjectPerKey (b : Bucket) (objects : Objects) : List (SystemTime × ObjectCall) → Prop
  | [] => True
  | (now, c) :: rest =>
    (call b now c).1 = (MemoryObjectStore.call objects now now c).1 ∧
    (∀ key, c = .delete key → (call b now c).1 = .ok .done →
      get (call b now c).2 key = .error (.notFound key) ∧
      ∀ now' data, (put (call b now c).2 now' key data ⟨.ifNotExists⟩).1 = .ok ()) ∧
    OneObjectPerKey (call b now c).2 (MemoryObjectStore.call objects now now c).2 rest

theorem call_simulates (h : Views b objects) (hc : Plain c)
    (hdepth : ∀ key, c = .delete key → (b.stack key).length ≤ 1) :
    Simulates (call b now c) (MemoryObjectStore.call objects now now c) := by
  cases c with
  | put => exact put_simulates h
  | get => exact get_simulates h
  | head => exact head_simulates h
  | list => exact list_simulates h
  | delete key => exact delete_simulates h (hdepth key rfl)
  | putWithRetention | extendRetention | getRetention => exact hc.elim

theorem vacant_of_stack_nil (h : b.stack key = []) :
    get b key = .error (.notFound key) ∧
      ∀ now data, (put b now key data ⟨.ifNotExists⟩).1 = .ok () := by
  have hcurrent : b.current key = none := Bucket.current_eq_none_iff.mpr h
  refine ⟨?_, ?_⟩
  · simp only [get, S3.getObject, hcurrent]
    rfl
  · intro now data
    simp only [put, putIfNotExists, S3.putObject, hcurrent]
    rfl

/-- After a successful delete the versions below the newest are what the key holds. -/
theorem stack_of_delete (h : Views b objects) (hok : (delete b now key).1 = .ok ()) :
    (delete b now key).2.stack key = (b.stack key).tail := by
  cases hv : b.current key with
  | none =>
    simp only [delete, deleteHead, S3.headObject, hv] at hok
    cases hok
  | some v =>
    obtain ⟨rest, hstack⟩ := Bucket.current_eq_some_iff.mp hv
    rw [delete_eq_of_current h hv, Bucket.stack_remove, if_pos rfl, Bucket.filter_newest hstack,
      hstack, List.tail_cons]

theorem call_delete_eq_done_iff :
    (call b now (.delete key)).1 = .ok .done ↔ (delete b now key).1 = .ok () := by
  simp only [call, Prod.map]
  cases (delete b now key).1 <;> simp [Except.map]

/-- A delete that leaves its key vacant met at most one version. -/
theorem stack_length_le_of_vacant (h : Views b objects)
    (hvacant : (call b now (.delete key)).1 = .ok .done →
      get (call b now (.delete key)).2 key = .error (.notFound key)) :
    (b.stack key).length ≤ 1 := by
  cases hv : b.current key with
  | none =>
    rw [Bucket.current_eq_none_iff.mp hv]
    exact Nat.zero_le 1
  | some v =>
    have hok : (delete b now key).1 = .ok () := by rw [delete_eq_of_current h hv]
    have hget := hvacant (call_delete_eq_done_iff.mpr hok)
    have hstack : (call b now (.delete key)).2.stack key = (b.stack key).tail :=
      stack_of_delete h hok
    have htail : (b.stack key).tail = [] := by
      rw [← hstack, ← Bucket.current_eq_none_iff]
      unfold get S3.getObject at hget
      cases hcurrent : (call b now (.delete key)).2.current key with
      | none => rfl
      | some u =>
        rw [hcurrent] at hget
        cases hget
    have hlen := List.length_tail (l := b.stack key)
    rw [htail, List.length_nil] at hlen
    omega

/-- The backend presents one object per key over exactly the runs whose deletes meet at most
one version. -/
theorem oneObjectPerKey_iff (h : Views b objects) (hplain : ∀ p ∈ calls, Plain p.2) :
    OneObjectPerKey b objects calls ↔ ShallowDeletes b calls := by
  induction calls generalizing b objects with
  | nil => exact Iff.rfl
  | cons p rest ih =>
    obtain ⟨now, c⟩ := p
    obtain ⟨hc, hrest⟩ := List.forall_mem_cons.mp hplain
    constructor
    · rintro ⟨-, hvacant, hnext⟩
      have hdepth : ∀ key, c = .delete key → (b.stack key).length ≤ 1 := by
        rintro key rfl
        exact stack_length_le_of_vacant h (fun hok => (hvacant key rfl hok).1)
      obtain ⟨-, hviews⟩ : Simulates (call b now c) (MemoryObjectStore.call objects now now c) :=
        call_simulates h hc hdepth
      exact ⟨hdepth, (ih hviews hrest).mp hnext⟩
    · rintro ⟨hdepth, hnext⟩
      obtain ⟨hreply, hviews⟩ :
          Simulates (call b now c) (MemoryObjectStore.call objects now now c) :=
        call_simulates h hc hdepth
      refine ⟨hreply, ?_, (ih hviews hrest).mpr hnext⟩
      rintro key rfl hok
      apply vacant_of_stack_nil
      have hstack : (call b now (.delete key)).2.stack key = (b.stack key).tail :=
        stack_of_delete h (call_delete_eq_done_iff.mp hok)
      rw [hstack, ← List.length_eq_zero_iff, List.length_tail]
      exact Nat.sub_eq_zero_of_le (hdepth key rfl)

theorem views_empty : Views Bucket.empty FiniteMap.empty :=
  ⟨fun _ => rfl, fun _ _ hv => by cases hv⟩

def sampleBlob : Blob := ⟨[1], by decide⟩

theorem oneObjectPerKey_put_delete :
    OneObjectPerKey Bucket.empty FiniteMap.empty
      [(⟨0⟩, .put "tile/0" sampleBlob ⟨.ifNotExists⟩), (⟨1⟩, .delete "tile/0"),
        (⟨2⟩, .put "tile/0" sampleBlob ⟨.ifNotExists⟩)] := by
  refine (oneObjectPerKey_iff views_empty ?_).mpr ⟨?_, ?_, ?_, trivial⟩
  · intro p hp
    simp only [List.mem_cons, List.not_mem_nil, or_false] at hp
    rcases hp with rfl | rfl | rfl <;> trivial
  · rintro key ⟨⟩
  · rintro key ⟨⟩
    decide +kernel
  · rintro key ⟨⟩

/-- A key that was overwritten once holds its first object again after a delete. -/
theorem delete_uncovers_overwritten :
    ¬ OneObjectPerKey Bucket.empty FiniteMap.empty
      [(⟨0⟩, .put "tile/0" sampleBlob ⟨.ifNotExists⟩),
        (⟨1⟩, .put "tile/0" ⟨[2], by decide⟩ ⟨.overwrite⟩), (⟨2⟩, .delete "tile/0")] := by
  rintro ⟨-, -, -, -, -, hvacant, -⟩
  obtain ⟨hget, -⟩ := hvacant "tile/0" rfl (by decide +kernel)
  revert hget
  decide +kernel

end Cloud.S3ObjectStore
