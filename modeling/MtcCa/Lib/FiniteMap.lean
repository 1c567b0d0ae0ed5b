import Mathlib

/-! Finite maps: a finite set of keys with a value at each. Two maps are equal exactly when
they look up alike, and the values may nest inside an inductive type. -/

/-- A map with finitely many keys. -/
structure FiniteMap (κ ν : Type*) where
  keys : Finset κ
  val : {k // k ∈ keys} → ν

namespace FiniteMap

variable {κ ν : Type*} [DecidableEq κ] {m m' : FiniteMap κ ν} {k j : κ} {v : ν}

def empty : FiniteMap κ ν := ⟨∅, fun k => absurd k.2 (Finset.notMem_empty _)⟩

def get? (m : FiniteMap κ ν) (k : κ) : Option ν :=
  if h : k ∈ m.keys then some (m.val ⟨k, h⟩) else none

/-- Sets the value at `k`, whether or not there was one. -/
def insert (m : FiniteMap κ ν) (k : κ) (v : ν) : FiniteMap κ ν where
  keys := Insert.insert k m.keys
  val j := if h : j.1 = k then v else m.val ⟨j.1, (Finset.mem_insert.mp j.2).resolve_left h⟩

/-- Removes the value at `k`, if there is one. -/
def erase (m : FiniteMap κ ν) (k : κ) : FiniteMap κ ν where
  keys := m.keys.erase k
  val j := m.val ⟨j.1, Finset.mem_of_mem_erase j.2⟩

/-- Sets or removes the value at `k`. -/
def assign (m : FiniteMap κ ν) (k : κ) : Option ν → FiniteMap κ ν
  | some v => m.insert k v
  | none => m.erase k

/-- Keeps the pairs that pass a test. -/
def filter (m : FiniteMap κ ν) (p : κ → ν → Bool) : FiniteMap κ ν where
  keys := m.keys.filter (fun k => (m.get? k).any (p k))
  val j := m.val ⟨j.1, Finset.mem_of_mem_filter _ j.2⟩

/-- The map of a list of pairs, later pairs replacing earlier ones. -/
def ofList (l : List (κ × ν)) : FiniteMap κ ν :=
  l.foldl (fun m p => m.insert p.1 p.2) empty

/-- The elements of a finite set in ascending order, by a sort that evaluates. -/
def ascending {κ : Type*} [LinearOrder κ] (s : Finset κ) : List κ :=
  Quotient.liftOn s.val (fun l => l.insertionSort (· ≤ ·)) (fun a b h =>
    (((List.perm_insertionSort _ a).trans h).trans
      (List.perm_insertionSort _ b).symm).eq_of_pairwise
      (fun _ _ _ _ => le_antisymm) (List.pairwise_insertionSort _ _)
      (List.pairwise_insertionSort _ _))

/-- The pairs of the map, in ascending key order. -/
def toList {κ : Type*} [LinearOrder κ] (m : FiniteMap κ ν) : List (κ × ν) :=
  (ascending m.keys).filterMap (fun k => (m.get? k).map (fun v => (k, v)))

@[simp] theorem get?_empty : (empty : FiniteMap κ ν).get? k = none :=
  dif_neg (Finset.notMem_empty k)

theorem get?_insert : (m.insert k v).get? j = if j = k then some v else m.get? j := by
  unfold get? insert
  by_cases h : j = k
  · simp [h]
  · simp [h]

@[simp] theorem get?_insert_self : (m.insert k v).get? k = some v := by
  rw [get?_insert, if_pos rfl]

theorem get?_insert_ne (h : j ≠ k) : (m.insert k v).get? j = m.get? j := by
  rw [get?_insert, if_neg h]

theorem get?_erase : (m.erase k).get? j = if j = k then none else m.get? j := by
  unfold get? erase
  by_cases h : j = k
  · simp [h]
  · simp [h]

@[simp] theorem get?_erase_self : (m.erase k).get? k = none := by
  rw [get?_erase, if_pos rfl]

theorem get?_erase_ne (h : j ≠ k) : (m.erase k).get? j = m.get? j := by
  rw [get?_erase, if_neg h]

theorem get?_assign {r : Option ν} : (m.assign k r).get? j = if j = k then r else m.get? j := by
  cases r with
  | none => exact get?_erase
  | some v => exact get?_insert

theorem get?_filter {p : κ → ν → Bool} : (m.filter p).get? k = (m.get? k).filter (p k) := by
  have hmem : k ∈ (m.filter p).keys ↔ k ∈ m.keys ∧ (m.get? k).any (p k) := Finset.mem_filter
  by_cases hk : k ∈ m.keys
  · have hget : m.get? k = some (m.val ⟨k, hk⟩) := dif_pos hk
    rw [hget, Option.any_some] at hmem
    by_cases hp : p k (m.val ⟨k, hk⟩)
    · rw [hget, Option.filter_some_pos hp]
      exact dif_pos (hmem.mpr ⟨hk, hp⟩)
    · rw [hget, Option.filter_some_neg (Bool.eq_false_iff.mpr hp)]
      exact dif_neg (fun h => hp (hmem.mp h).2)
  · have hget : m.get? k = none := dif_neg hk
    rw [hget]
    exact dif_neg (fun h => hk (hmem.mp h).1)

theorem get?_filter_eq_some_iff {p : κ → ν → Bool} :
    (m.filter p).get? k = some v ↔ m.get? k = some v ∧ p k v := by
  rw [get?_filter, Option.filter_eq_some_iff]

/-- Setting other keys changes nothing at `k`. -/
theorem get?_foldl_insert_of_notMem {l : List (κ × ν)} (h : k ∉ l.map Prod.fst) :
    (l.foldl (fun m p => m.insert p.1 p.2) m).get? k = m.get? k := by
  induction l generalizing m with
  | nil => rfl
  | cons p l ih =>
    rw [List.map_cons, List.mem_cons, not_or] at h
    rw [List.foldl_cons, ih h.2, get?_insert_ne h.1]

/-- Setting different keys sets each of them. -/
theorem get?_foldl_insert_of_mem {l : List (κ × ν)} (hl : (l.map Prod.fst).Nodup)
    (h : (k, v) ∈ l) : (l.foldl (fun m p => m.insert p.1 p.2) m).get? k = some v := by
  induction l generalizing m with
  | nil => cases h
  | cons p l ih =>
    obtain ⟨hp, hl⟩ := List.nodup_cons.mp hl
    rw [List.foldl_cons]
    rcases List.mem_cons.mp h with rfl | h
    · rw [get?_foldl_insert_of_notMem hp, get?_insert_self]
    · exact ih hl h

/-- Removing keys removes each of them. -/
theorem get?_foldl_erase {l : List κ} :
    (l.foldl erase m).get? j = if j ∈ l then none else m.get? j := by
  induction l generalizing m with
  | nil => simp
  | cons k l ih =>
    rw [List.foldl_cons, ih, get?_erase]
    by_cases hk : j = k
    · simp [hk]
    · simp [hk]

/-- Changing every value changes what is looked up. -/
theorem get?_mk_comp {μ : Type*} {ks : Finset κ} {f : {k // k ∈ ks} → ν} (g : ν → μ) :
    (⟨ks, fun j => g (f j)⟩ : FiniteMap κ μ).get? k = ((⟨ks, f⟩ : FiniteMap κ ν).get? k).map g := by
  unfold get?
  split <;> rfl

theorem mem_keys_iff : k ∈ m.keys ↔ (m.get? k).isSome := by
  unfold get?
  split <;> simp_all

@[ext] theorem ext (h : ∀ k, m.get? k = m'.get? k) : m = m' := by
  obtain ⟨ks, f⟩ := m
  obtain ⟨ks', f'⟩ := m'
  have hkeys : ks = ks' := by
    ext k
    have hk := mem_keys_iff (m := ⟨ks, f⟩) (k := k)
    have hk' := mem_keys_iff (m := ⟨ks', f'⟩) (k := k)
    rw [h k, ← hk'] at hk
    exact hk
  subst hkeys
  congr
  funext ⟨k, hk⟩
  have hval := h k
  simpa [get?, hk] using hval

section ordered

variable {κ : Type*} [LinearOrder κ] {m : FiniteMap κ ν}

theorem ascending_eq_sort (s : Finset κ) : ascending s = s.sort := by
  have hperm : (ascending s).Perm s.sort := by
    rw [← Multiset.coe_eq_coe, Finset.sort_eq]
    obtain ⟨⟨l⟩, h⟩ := s
    exact Multiset.coe_eq_coe.mpr (List.perm_insertionSort _ l)
  refine hperm.eq_of_pairwise (fun _ _ _ _ => le_antisymm) ?_ (Finset.pairwise_sort s _)
  obtain ⟨⟨l⟩, h⟩ := s
  exact List.pairwise_insertionSort _ l

theorem mem_toList {p : κ × ν} : p ∈ m.toList ↔ m.get? p.1 = some p.2 := by
  rw [toList, List.mem_filterMap]
  constructor
  · rintro ⟨k, -, h⟩
    obtain ⟨v, hv, rfl⟩ := Option.map_eq_some_iff.mp h
    exact hv
  · intro h
    refine ⟨p.1, ?_, by rw [h]; rfl⟩
    rw [ascending_eq_sort, Finset.mem_sort, mem_keys_iff, h]
    rfl

theorem map_fst_toList : m.toList.map Prod.fst = ascending m.keys := by
  rw [toList, List.map_filterMap]
  calc (ascending m.keys).filterMap (fun k => ((m.get? k).map (fun v => (k, v))).map Prod.fst)
      = (ascending m.keys).filterMap some := by
        apply List.filterMap_congr
        intro k hk
        rw [ascending_eq_sort, Finset.mem_sort, mem_keys_iff, Option.isSome_iff_exists] at hk
        obtain ⟨v, hv⟩ := hk
        rw [hv]
        rfl
    _ = ascending m.keys := List.filterMap_some

theorem toList_sorted : m.toList.Pairwise (fun p q => p.1 < q.1) := by
  rw [toList, ascending_eq_sort]
  refine List.Pairwise.filterMap _ ?_ (Finset.sortedLT_sort m.keys).pairwise
  intro k k' hlt p hp q hq
  obtain ⟨v, -, rfl⟩ := Option.map_eq_some_iff.mp hp
  obtain ⟨w, -, rfl⟩ := Option.map_eq_some_iff.mp hq
  exact hlt

theorem length_toList_le : m.toList.length ≤ m.keys.card := by
  refine le_trans (List.length_filterMap_le _ _) ?_
  rw [ascending_eq_sort, Finset.length_sort]

/-- Two lists in strictly ascending order of a key are equal when they have the same
elements. -/
theorem eq_of_sorted_of_mem_iff {β : Type*} {f : β → κ} {l l' : List β}
    (h : l.Pairwise (fun a b => f a < f b)) (h' : l'.Pairwise (fun a b => f a < f b))
    (hmem : ∀ a, a ∈ l ↔ a ∈ l') : l = l' := by
  have : Std.Antisymm (fun a b : β => f a < f b) := ⟨fun _ _ hab hba => absurd hab hba.not_gt⟩
  have : Std.Irrefl (fun a b : β => f a < f b) := ⟨fun _ => lt_irrefl _⟩
  exact h.eq_of_mem_iff h' hmem

end ordered

instance [DecidableEq ν] : DecidableEq (FiniteMap κ ν) := fun a b =>
  decidable_of_iff (a.keys = b.keys ∧ ∀ k ∈ a.keys, a.get? k = b.get? k) (by
    constructor
    · rintro ⟨hkeys, hget⟩
      apply ext
      intro k
      by_cases hk : k ∈ a.keys
      · exact hget k hk
      · rw [get?, get?, dif_neg hk, dif_neg (hkeys ▸ hk)]
    · rintro rfl
      exact ⟨rfl, fun _ _ => rfl⟩)

end FiniteMap
