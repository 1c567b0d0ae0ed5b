import MtcCa.Lib.MerklePaths

/-! What a Merkle root pins down when `f` has no collision among the pairs in play.
The pairs are named explicitly, so a hash with a fixed-size output can meet the
assumption; a globally injective `f` meets it on every set. -/
namespace Merkle

variable {α : Type*} {f : α → α → α} {z : α} {l : List α} {S : Set (α × α)} {a b c d : α}

/-- No two different pairs of `S` have the same hash. -/
def CollisionFreeOn (f : α → α → α) (S : Set (α × α)) : Prop :=
  Set.InjOn (fun p => f p.1 p.2) S

theorem CollisionFreeOn.mono {T : Set (α × α)} (h : CollisionFreeOn f T) (hs : S ⊆ T) :
    CollisionFreeOn f S :=
  Set.InjOn.mono hs h

theorem CollisionFreeOn.pair_eq (h : CollisionFreeOn f S) (ha : (a, b) ∈ S) (hc : (c, d) ∈ S)
    (he : f a b = f c d) : a = c ∧ b = d :=
  Prod.ext_iff.mp (h ha hc he)

/-- Collision-freedom on finitely many pairs is a finite check. -/
theorem collisionFreeOn_of_forall_mem (ps : List (α × α))
    (h : ∀ p ∈ ps, ∀ q ∈ ps, f p.1 p.2 = f q.1 q.2 → p = q) (hs : ∀ p ∈ S, p ∈ ps) :
    CollisionFreeOn f S :=
  fun p hp q hq he => h p (hs p hp) q (hs q hq) he

theorem nodePairs_split (h : 2 ≤ l.length) :
    nodePairs f z l =
      (root f z (l.take (split l.length)), root f z (l.drop (split l.length))) ::
        (nodePairs f z (l.take (split l.length)) ++
          nodePairs f z (l.drop (split l.length))) := by
  rw [nodePairs, if_pos h]

/-- Every pair of neighbours on the bottom level is hashed. -/
theorem mem_nodePairs {j : ℕ} (ha : l[2 * j]? = some a) (hb : l[2 * j + 1]? = some b) :
    (a, b) ∈ nodePairs f z l := by
  induction hn : l.length using Nat.strong_induction_on generalizing l j with
  | _ n ih =>
    subst hn
    have hj : 2 * j + 1 < l.length := (List.getElem?_eq_some_iff.mp hb).1
    have hlt := split_lt (n := l.length) (by omega)
    have hpos := split_pos l.length
    rw [nodePairs_split (by omega)]
    by_cases h3 : 3 ≤ l.length
    · have hhalf := split_half h3
      simp only [List.mem_cons, List.mem_append]
      right
      by_cases hk : 2 * j + 1 < split l.length
      · left
        exact ih _ (by rw [List.length_take]; omega) (j := j)
          (by rw [List.getElem?_take_of_lt (by omega), ha])
          (by rw [List.getElem?_take_of_lt (by omega), hb]) rfl
      · right
        apply ih _ (by rw [List.length_drop]; omega) (j := j - split ((l.length + 1) / 2)) _ _ rfl
        · rw [List.getElem?_drop, ← ha]
          congr 1
          omega
        · rw [List.getElem?_drop, ← hb]
          congr 1
          omega
    · obtain ⟨x, y, rfl⟩ : ∃ x y, l = [x, y] := List.length_eq_two.mp (by omega)
      have h0 : j = 0 := by simp at hj; omega
      subst h0
      simp_all [split_two]

/-- Climbing a level hashes no new pair. -/
theorem nodePairs_pairUp_subset (l : List α) :
    nodePairs f z (pairUp f l) ⊆ nodePairs f z l := by
  induction hn : l.length using Nat.strong_induction_on generalizing l with
  | _ n ih =>
    subst hn
    by_cases h3 : 3 ≤ l.length
    · have hlt := split_lt (n := l.length) (by omega)
      have hpos := split_pos l.length
      have hhalf := split_half h3
      rw [nodePairs_split (l := l) (by omega),
        nodePairs_split (l := pairUp f l) (by rw [length_pairUp]; omega), length_pairUp,
        ← pairUp_take, ← pairUp_drop, ← hhalf, root_pairUp, root_pairUp]
      apply List.cons_subset_cons
      exact List.append_subset.mpr
        ⟨List.subset_append_of_subset_left _ (ih _ (by rw [List.length_take]; omega) _ rfl),
          List.subset_append_of_subset_right _ (ih _ (by rw [List.length_drop]; omega) _ rfl)⟩
    · rw [nodePairs, if_neg (by rw [length_pairUp]; omega)]
      exact List.nil_subset _

/-- Two trees of one size with the same root have the same leaves. -/
theorem eq_of_root_eq {l' : List α} (hlen : l.length = l'.length) (hne : l ≠ [])
    (hcf : CollisionFreeOn f {p | p ∈ nodePairs f z l ∨ p ∈ nodePairs f z l'})
    (h : root f z l = root f z l') : l = l' := by
  induction hn : l.length using Nat.strong_induction_on generalizing l l' with
  | _ n ih =>
    subst hn
    have hone : 1 ≤ l.length := List.length_pos_iff.mpr hne
    by_cases h2 : 2 ≤ l.length
    · have hlt := split_lt h2
      have hpos := split_pos l.length
      have hl := nodePairs_split (f := f) (z := z) h2
      have hl' := nodePairs_split (f := f) (z := z) (l := l') (by omega)
      rw [← hlen] at hl'
      rw [root_split h2, root_split (l := l') (by omega), ← hlen] at h
      obtain ⟨htake, hdrop⟩ := hcf.pair_eq (by simp [hl]) (by simp [hl']) h
      have et := ih _ (by rw [List.length_take]; omega) (by simp [hlen])
        (List.ne_nil_of_length_pos (by rw [List.length_take]; omega))
        (hcf.mono (by rw [hl, hl']; intro p; simp only [Set.mem_ofPred_eq, List.mem_cons,
          List.mem_append]; tauto)) htake rfl
      have ed := ih _ (by rw [List.length_drop]; omega) (by simp [hlen])
        (List.ne_nil_of_length_pos (by rw [List.length_drop]; omega))
        (hcf.mono (by rw [hl, hl']; intro p; simp only [Set.mem_ofPred_eq, List.mem_cons,
          List.mem_append]; tauto)) hdrop rfl
      rw [← List.take_append_drop (split l.length) l, et, ed, List.take_append_drop]
    · obtain ⟨x, rfl⟩ : ∃ x, l = [x] := List.length_eq_one_iff.mp (by omega)
      obtain ⟨y, rfl⟩ : ∃ y, l' = [y] := List.length_eq_one_iff.mp (by omega)
      simpa using h

/-- Levels that agree on their first `q` hashes come from lists that agree on twice as many. -/
theorem getElem?_eq_of_pairUp {l' : List α} {q : ℕ} (hl : 2 * q ≤ l.length)
    (hl' : 2 * q ≤ l'.length)
    (hcf : CollisionFreeOn f {p | p ∈ nodePairs f z l ∨ p ∈ nodePairs f z l'})
    (h : ∀ j < q, (pairUp f l)[j]? = (pairUp f l')[j]?) :
    ∀ j < 2 * q, l[j]? = l'[j]? := by
  intro j hj
  have hpair : ∀ t : List α, 2 * q ≤ t.length →
      ∃ x y, t[2 * (j / 2)]? = some x ∧ t[2 * (j / 2) + 1]? = some y := by
    intro t ht
    exact ⟨_, _, List.getElem?_eq_getElem (by omega), List.getElem?_eq_getElem (by omega)⟩
  obtain ⟨x, y, hx, hy⟩ := hpair l hl
  obtain ⟨x', y', hx', hy'⟩ := hpair l' hl'
  have he := h (j / 2) (by omega)
  rw [getElem?_pairUp hx hy, getElem?_pairUp hx' hy'] at he
  obtain ⟨ex, ey⟩ := hcf.pair_eq (Or.inl (mem_nodePairs hx hy)) (Or.inr (mem_nodePairs hx' hy'))
    (Option.some.inj he)
  rcases Nat.mod_two_eq_zero_or_one j with hm | hm
  · rw [show j = 2 * (j / 2) by omega, hx, hx', ex]
  · rw [show j = 2 * (j / 2) + 1 by omega, hy, hy', ey]

end Merkle
