import MtcCa.Proof.Consistency
import MtcCa.Proof.InclusionCorrect

/-! The consistency loop climbs the old and the new tree together. The invariant is
that both stand on one level, agree on every earlier hash of it, and hold the two
accumulators at the same position. -/
namespace Mtc

open Merkle (siblings pairUp split subproof)

variable {H : Hasher} {A B : List HashOutput} {node last : ℕ} {first second p : HashOutput}
  {S : Set (HashOutput × HashOutput)}

theorem subtree_eq {tree : MerkleTree H} {s e : ℕ} (hse : s < e) (he : e ≤ tree.leaves.length) :
    subtree tree s e = .ok (mth H (tree.leaves.extract s e)) := by
  rw [subtree, tree.subtreeHash_of_le hse he]

theorem collectSubproof_eq {tree : MerkleTree H} {m start stop : ℕ} {b : Bool}
    {out : List HashOutput} (hstop : stop ≤ tree.leaves.length) (hlt : start < stop)
    (hm : m ≤ stop - start) :
    collectSubproof tree m start stop b out = .ok (out ++
      subproof (hashNode H) (emptyRoot H) (tree.leaves.extract start stop) m b) := by
  induction hn : stop - start using Nat.strong_induction_on generalizing m start stop b out with
  | _ n ih =>
    have hlen := Slices.length_extract (l := tree.leaves) (s := start) hstop
    rw [collectSubproof]
    split
    · rw [Merkle.subproof_whole (by omega), ← mth_eq_root, subtree_eq hlt hstop]
      cases b <;> simp [bind, Except.bind]
    · have hsplit := Merkle.split_lt (n := stop - start) (by omega)
      have hpos := Merkle.split_pos (stop - start)
      simp only [largestPowerOfTwoBelow_eq_split]
      split
      · rw [ih _ (by omega) (by omega) (by omega) (by omega) rfl, subtree_eq (by omega) hstop,
          Merkle.subproof_left (l := tree.leaves.extract start stop) (by omega) (by omega)
            (by rw [hlen]; omega), hlen, Slices.take_extract (by omega), Slices.drop_extract,
          ← mth_eq_root]
        simp [bind, Except.bind]
      · rw [ih _ (by omega) hstop (by omega) (by omega) rfl, subtree_eq (by omega) (by omega),
          Merkle.subproof_right (l := tree.leaves.extract start stop) (by omega) (by omega)
            (by rw [hlen]; omega), hlen, Slices.take_extract (by omega), Slices.drop_extract,
          ← mth_eq_root]
        simp [bind, Except.bind]

theorem subproofLen_eq {α : Type*} {f : α → α → α} {e : α} {l : List α} {m : ℕ} {b : Bool}
    (hm : m ≤ l.length) : subproofLen m l.length b = (subproof f e l m b).length := by
  induction hn : l.length using Nat.strong_induction_on generalizing m b l with
  | _ n ih =>
    subst hn
    rw [subproofLen]
    split
    · rw [Merkle.subproof_whole (by omega)]
      cases b <;> simp
    · have hsplit := Merkle.split_lt (n := l.length) (by omega)
      have hpos := Merkle.split_pos l.length
      simp only [largestPowerOfTwoBelow_eq_split]
      split
      · have htake : (l.take (split l.length)).length = split l.length := by
          rw [List.length_take]
          omega
        rw [Merkle.subproof_left (by omega) (by omega) (by omega), List.length_append,
          List.length_singleton, ← ih _ (by omega) (by omega) rfl, htake]
      · have hdrop : (l.drop (split l.length)).length = l.length - split l.length :=
          List.length_drop
        rw [Merkle.subproof_right (by omega) (by omega) (by omega), List.length_append,
          List.length_singleton, ← ih _ (by omega) (by omega) rfl, hdrop]

theorem consistencyPathLen_eq {α : Type*} {f : α → α → α} {e : α} {l : List α} {m : ℕ}
    (hpos : 0 < m) (hlt : m < l.length) :
    consistencyPathLen m l.length = (subproof f e l m true).length := by
  rw [consistencyPathLen, if_neg (by omega), subproofLen_eq (by omega)]

namespace ConsistencyProof

/-- Old tree `A` and new tree `B` on one level, with the accumulators at `node`. -/
structure Aligned (A B : List HashOutput) (node last : ℕ) (first second : HashOutput) : Prop where
  length_old : A.length = node + 1
  length_new : B.length = last + 1
  le : node ≤ last
  first_eq : A[node]? = some first
  second_eq : B[node]? = some second
  agree : ∀ j < node, A[j]? = B[j]?

theorem pairUp_agree {q : ℕ} (hA : 2 * q ≤ A.length)
    (h : ∀ j < 2 * q, A[j]? = B[j]?) :
    ∀ j < q, (pairUp (hashNode H) A)[j]? = (pairUp (hashNode H) B)[j]? := by
  intro j hj
  have hx := h (2 * j) (by omega)
  have hy := h (2 * j + 1) (by omega)
  have ha : A[2 * j]? = some A[2 * j] := List.getElem?_eq_getElem (by omega)
  have hb : A[2 * j + 1]? = some A[2 * j + 1] := List.getElem?_eq_getElem (by omega)
  rw [Merkle.getElem?_pairUp ha hb, Merkle.getElem?_pairUp (hx ▸ ha) (hy ▸ hb)]

theorem Aligned.lengths_up (h : Aligned A B node last first second) :
    (pairUp (hashNode H) A).length = node / 2 + 1 ∧
      (pairUp (hashNode H) B).length = last / 2 + 1 ∧ node / 2 ≤ last / 2 := by
  have hA := h.length_old
  have hB := h.length_new
  have hle := h.le
  simp only [Merkle.length_pairUp]
  omega

/-- Both accumulators take the common left sibling. -/
theorem Aligned.up_odd (h : Aligned A B node last first second) (hodd : node % 2 = 1)
    (hp : B[node - 1]? = some p) :
    Aligned (pairUp (hashNode H) A) (pairUp (hashNode H) B) (node / 2) (last / 2)
      (hashNode H p first) (hashNode H p second) := by
  obtain ⟨hA, hB, hle⟩ := h.lengths_up (H := H)
  have hl := h.length_old
  have hl' := h.length_new
  have hle' := h.le
  have hleft : 2 * (node / 2) = node - 1 := by omega
  have hself : 2 * (node / 2) + 1 = node := by omega
  refine ⟨hA, hB, hle, ?_, ?_, ?_⟩
  · apply Merkle.getElem?_pairUp
    · rw [hleft, h.agree _ (by omega), hp]
    · rw [hself, h.first_eq]
  · apply Merkle.getElem?_pairUp
    · rw [hleft, hp]
    · rw [hself, h.second_eq]
  · exact pairUp_agree (by omega) (fun j hj => h.agree j (by omega))

/-- Only the new tree has a right sibling; the old accumulator is promoted. -/
theorem Aligned.up_even (h : Aligned A B node last first second) (heven : node % 2 = 0)
    (hp : B[node + 1]? = some p) :
    Aligned (pairUp (hashNode H) A) (pairUp (hashNode H) B) (node / 2) (last / 2)
      first (hashNode H second p) := by
  obtain ⟨hA, hB, hle⟩ := h.lengths_up (H := H)
  have hl := h.length_old
  have hl' := h.length_new
  have hle' := h.le
  have hself : 2 * (node / 2) = node := by omega
  refine ⟨hA, hB, hle, ?_, ?_, ?_⟩
  · rw [Merkle.getElem?_pairUp_last (by omega), hself, h.first_eq]
  · apply Merkle.getElem?_pairUp
    · rw [hself, h.second_eq]
    · rw [hself, hp]
  · exact pairUp_agree (by omega) (fun j hj => h.agree j (by omega))

/-- The last position of both trees is promoted in both. -/
theorem Aligned.up_last (h : Aligned A B node last first second) (heven : node % 2 = 0)
    (hlast : node = last) :
    Aligned (pairUp (hashNode H) A) (pairUp (hashNode H) B) (node / 2) (last / 2) first second := by
  obtain ⟨hA, hB, hle⟩ := h.lengths_up (H := H)
  have hl := h.length_old
  have hl' := h.length_new
  have hself : 2 * (node / 2) = node := by omega
  refine ⟨hA, hB, hle, ?_, ?_, ?_⟩
  · rw [Merkle.getElem?_pairUp_last (by omega), hself, h.first_eq]
  · rw [Merkle.getElem?_pairUp_last (by omega), hself, h.second_eq]
  · exact pairUp_agree (by omega) (fun j hj => h.agree j (by omega))

/-- A hash of the level above that equals a hashed pair of `S` has that pair as children. -/
theorem children_eq {l : List HashOutput} {j : ℕ} {x y : HashOutput}
    (hcf : Merkle.CollisionFreeOn (hashNode H) S) (hl : ∀ q ∈ mthPairs H l, q ∈ S)
    (hlen : 2 * j + 1 < l.length) (hxy : (x, y) ∈ S)
    (h : (pairUp (hashNode H) l)[j]? = some (hashNode H x y)) :
    l[2 * j]? = some x ∧ l[2 * j + 1]? = some y := by
  have hx : l[2 * j]? = some l[2 * j] := List.getElem?_eq_getElem (by omega)
  have hy : l[2 * j + 1]? = some l[2 * j + 1] := List.getElem?_eq_getElem (by omega)
  rw [Merkle.getElem?_pairUp hx hy] at h
  obtain ⟨ex, ey⟩ := hcf.pair_eq (hl _ (Merkle.mem_nodePairs hx hy)) hxy (Option.some.inj h)
  rw [hx, hy, ex, ey]
  exact ⟨rfl, rfl⟩

section down

variable (hcf : Merkle.CollisionFreeOn (hashNode H) S) (hSA : ∀ q ∈ mthPairs H A, q ∈ S)
  (hSB : ∀ q ∈ mthPairs H B, q ∈ S) (hA : A.length = node + 1) (hB : B.length = last + 1)
  (hle : node ≤ last)
include hcf hSA hSB hA hB hle

theorem agree_down {q : ℕ} (hq : 2 * q ≤ node + 1)
    (h : ∀ j < q, (pairUp (hashNode H) A)[j]? = (pairUp (hashNode H) B)[j]?) :
    ∀ j < 2 * q, A[j]? = B[j]? := by
  refine Merkle.getElem?_eq_of_pairUp (z := emptyRoot H) (by omega) (by omega)
    (hcf.mono ?_) h
  rintro r (hr | hr)
  · exact hSA r hr
  · exact hSB r hr

theorem Aligned.down_odd (hodd : node % 2 = 1) (hp₁ : (p, first) ∈ S) (hp₂ : (p, second) ∈ S)
    (h : Aligned (pairUp (hashNode H) A) (pairUp (hashNode H) B) (node / 2) (last / 2)
      (hashNode H p first) (hashNode H p second)) : Aligned A B node last first second := by
  obtain ⟨hl, hf⟩ := children_eq hcf hSA (by omega) hp₁ h.first_eq
  obtain ⟨hr, hs⟩ := children_eq hcf hSB (by omega) hp₂ h.second_eq
  rw [show 2 * (node / 2) = node - 1 by omega] at hl hr
  rw [show 2 * (node / 2) + 1 = node by omega] at hf hs
  refine ⟨hA, hB, hle, hf, hs, ?_⟩
  intro j hj
  by_cases hlast : j = node - 1
  · rw [hlast, hl, hr]
  · exact agree_down hcf hSA hSB hA hB hle (by omega) h.agree j (by omega)

theorem Aligned.down_even (heven : node % 2 = 0) (hlt : node < last) (hp : (second, p) ∈ S)
    (h : Aligned (pairUp (hashNode H) A) (pairUp (hashNode H) B) (node / 2) (last / 2)
      first (hashNode H second p)) : Aligned A B node last first second := by
  obtain ⟨hs, -⟩ := children_eq hcf hSB (by omega) hp h.second_eq
  have hf := h.first_eq
  rw [Merkle.getElem?_pairUp_last (by omega)] at hf
  rw [show 2 * (node / 2) = node by omega] at hs hf
  refine ⟨hA, hB, hle, hf, hs, ?_⟩
  intro j hj
  exact agree_down hcf hSA hSB hA hB hle (by omega) h.agree j (by omega)

theorem Aligned.down_last (heven : node % 2 = 0) (hlast : node = last)
    (h : Aligned (pairUp (hashNode H) A) (pairUp (hashNode H) B) (node / 2) (last / 2)
      first second) : Aligned A B node last first second := by
  have hf := h.first_eq
  have hs := h.second_eq
  rw [Merkle.getElem?_pairUp_last (by omega), show 2 * (node / 2) = node by omega] at hf hs
  refine ⟨hA, hB, hle, hf, hs, ?_⟩
  intro j hj
  exact agree_down hcf hSA hSB hA hB hle (by omega) h.agree j (by omega)

end down

/-- Where skipping the trailing ones of the old position leads: the levels it reaches, with
everything the loops need to know about them. -/
structure SkippedLevel (H : Hasher) (A B : List HashOutput) (node last : ℕ) where
  old : List HashOutput
  new : List HashOutput
  node' : ℕ
  last' : ℕ
  skip_eq : skipOdd node last = (node', last')
  even : node' % 2 = 0
  length_old : old.length = node' + 1
  length_new : new.length = last' + 1
  lt : node' < last'
  mth_old : mth H old = mth H A
  mth_new : mth H new = mth H B
  pairs_old : mthPairs H old ⊆ mthPairs H A
  pairs_new : mthPairs H new ⊆ mthPairs H B
  agree_up : (∀ j < node + 1, A[j]? = B[j]?) → ∀ j < node' + 1, old[j]? = new[j]?
  agree_down : ∀ S, Merkle.CollisionFreeOn (hashNode H) S → (∀ q ∈ mthPairs H A, q ∈ S) →
    (∀ q ∈ mthPairs H B, q ∈ S) → (∀ j < node' + 1, old[j]? = new[j]?) →
    ∀ j < node + 1, A[j]? = B[j]?
  subproof_eq : ∀ b, subproof (hashNode H) (emptyRoot H) new (node' + 1) b =
    subproof (hashNode H) (emptyRoot H) B (node + 1) b

/-- An even position is not skipped. -/
def SkippedLevel.stay {i n : ℕ} (hA : A.length = i + 1) (hB : B.length = n + 1) (hlt : i < n)
    (heven : i % 2 = 0) : SkippedLevel H A B i n where
  old := A
  new := B
  node' := i
  last' := n
  skip_eq := by rw [skipOdd, if_neg (by rw [Nat.and_one_is_mod]; omega)]
  even := heven
  length_old := hA
  length_new := hB
  lt := hlt
  mth_old := rfl
  mth_new := rfl
  pairs_old := List.Subset.refl _
  pairs_new := List.Subset.refl _
  agree_up := fun h => h
  agree_down := fun _ _ _ _ h => h
  subproof_eq := fun _ => rfl

/-- From an odd position the skip goes on one level up. -/
def SkippedLevel.up {i n : ℕ} (hA : A.length = i + 1) (hB : B.length = n + 1) (hlt : i < n)
    (hodd : i % 2 = 1)
    (L : SkippedLevel H (pairUp (hashNode H) A) (pairUp (hashNode H) B) (i / 2) (n / 2)) :
    SkippedLevel H A B i n where
  old := L.old
  new := L.new
  node' := L.node'
  last' := L.last'
  skip_eq := by
    rw [skipOdd, if_pos (by rw [Nat.and_one_is_mod, hodd]), Nat.shiftRight_one,
      Nat.shiftRight_one, L.skip_eq]
  even := L.even
  length_old := L.length_old
  length_new := L.length_new
  lt := L.lt
  mth_old := L.mth_old.trans (mth_pairUp A)
  mth_new := L.mth_new.trans (mth_pairUp B)
  pairs_old := List.Subset.trans L.pairs_old (mthPairs_pairUp_subset A)
  pairs_new := List.Subset.trans L.pairs_new (mthPairs_pairUp_subset B)
  agree_up := by
    intro h
    exact L.agree_up (pairUp_agree (by omega) (by rwa [show 2 * (i / 2 + 1) = i + 1 by omega]))
  agree_down := by
    intro S hcf hSA hSB h
    have hup := L.agree_down S hcf (fun q hq => hSA q (mthPairs_pairUp_subset A hq))
      (fun q hq => hSB q (mthPairs_pairUp_subset B hq)) h
    have hdown := ConsistencyProof.agree_down hcf hSA hSB hA hB hlt.le (by omega) hup
    rwa [show 2 * (i / 2 + 1) = i + 1 by omega] at hdown
  subproof_eq := by
    intro b
    rw [L.subproof_eq, Merkle.subproof_even (m := i + 1) (by omega) (by omega) (by omega),
      show (i + 1) / 2 = i / 2 + 1 by omega]

theorem skippedLevel {i n : ℕ} (hA : A.length = i + 1) (hB : B.length = n + 1) (hlt : i < n) :
    Nonempty (SkippedLevel H A B i n) := by
  induction hk : i using Nat.strong_induction_on generalizing A B i n with
  | _ k ih =>
    subst hk
    by_cases hodd : i % 2 = 1
    · have hA' : (pairUp (hashNode H) A).length = i / 2 + 1 := by
        rw [Merkle.length_pairUp]
        omega
      have hB' : (pairUp (hashNode H) B).length = n / 2 + 1 := by
        rw [Merkle.length_pairUp]
        omega
      obtain ⟨L⟩ := ih (i / 2) (by omega) hA' hB' (by omega) rfl
      exact ⟨L.up hA hB hlt hodd⟩
    · exact ⟨.stay hA hB hlt (by omega)⟩

theorem pathAt_eq_ok_iff {path : List HashOutput} {idx e : ℕ} :
    pathAt path idx e = .ok p ↔ path[idx]? = some p := by
  unfold pathAt
  cases path[idx]? <;> simp

/-- A single hash is its own tree hash. -/
theorem getElem?_zero_of_length_one {l : List HashOutput} (h : l.length = 1) :
    l[0]? = some (mth H l) := by
  obtain ⟨a, rfl⟩ := List.length_eq_one_iff.mp h
  simp [mth]

section loops

variable {path : List HashOutput} {e idx idx' last' : ℕ} {s' : HashOutput}

theorem climbNew_sound (hcf : Merkle.CollisionFreeOn (hashNode H) S)
    (hSB : ∀ q ∈ mthPairs H B, q ∈ S) (hP : ∀ q ∈ climbNewPairs H path last idx second, q ∈ S)
    (hB : B.length = last + 1) (h : climbNew H path e last idx second = .ok (idx', mth H B)) :
    B[0]? = some second := by
  induction hn : last using Nat.strong_induction_on generalizing B last idx second with
  | _ n ih =>
    subst hn
    rw [climbNew] at h
    rw [climbNewPairs] at hP
    by_cases hpos : last > 0
    · rw [if_pos hpos] at h hP
      cases hp : path[idx]? with
      | none => simp [pathAt, hp, bind, Except.bind] at h
      | some p =>
        simp only [hp, List.mem_cons] at hP
        simp only [pathAt, hp, bind, Except.bind, Nat.shiftRight_one, ← mth_pairUp B] at h
        rw [Nat.shiftRight_one] at hP
        have hup := ih (last / 2) (by omega) (fun q hq => hSB q (mthPairs_pairUp_subset B hq))
          (fun q hq => hP q (Or.inr hq)) (by rw [Merkle.length_pairUp]; omega) h rfl
        exact (children_eq hcf hSB (by omega) (hP _ (Or.inl rfl)) hup).1
    · rw [if_neg hpos] at h
      have hs : second = mth H B := by simp_all
      rw [hs]
      exact getElem?_zero_of_length_one (by omega)

/-- The two loops accept the roots of `A` and `B` only from aligned accumulators. -/
theorem climbBoth_sound (hcf : Merkle.CollisionFreeOn (hashNode H) S)
    (hSA : ∀ q ∈ mthPairs H A, q ∈ S) (hSB : ∀ q ∈ mthPairs H B, q ∈ S)
    (hP : ∀ q ∈ climbPairs H path node last idx first second, q ∈ S)
    (hA : A.length = node + 1) (hB : B.length = last + 1) (hle : node ≤ last)
    {i : ℕ} (h : climbBoth H path e node last idx first second = .ok (last', idx', mth H A, s'))
    (h' : climbNew H path e last' idx' s' = .ok (i, mth H B)) :
    Aligned A B node last first second := by
  induction hn : node using Nat.strong_induction_on
    generalizing A B node last idx first second with
  | _ n ih =>
    subst hn
    rw [climbBoth] at h
    rw [climbPairs] at hP
    have hSA' := fun q hq => hSA q (mthPairs_pairUp_subset A hq)
    have hSB' := fun q hq => hSB q (mthPairs_pairUp_subset B hq)
    by_cases hpos : node > 0
    · have hlenA : (pairUp (hashNode H) A).length = node / 2 + 1 := by
        rw [Merkle.length_pairUp]
        omega
      have hlenB : (pairUp (hashNode H) B).length = last / 2 + 1 := by
        rw [Merkle.length_pairUp]
        omega
      rw [if_pos hpos] at h hP
      simp only [Nat.and_one_is_mod, Nat.shiftRight_one, ← mth_pairUp A] at h hP
      rw [← mth_pairUp B] at h'
      by_cases hodd : node % 2 = 1
      · rw [if_pos hodd] at h hP
        cases hp : path[idx]? with
        | none => simp [pathAt, hp, bind, Except.bind] at h
        | some p =>
          simp only [hp, List.mem_cons] at hP
          simp only [pathAt, hp, bind, Except.bind] at h
          exact Aligned.down_odd hcf hSA hSB hA hB hle hodd (hP _ (Or.inl rfl))
            (hP _ (Or.inr (Or.inl rfl)))
            (ih (node / 2) (by omega) hSA' hSB' (fun q hq => hP q (Or.inr (Or.inr hq))) hlenA hlenB
              (by omega) h h' rfl)
      · rw [if_neg hodd] at h hP
        by_cases hlt : node < last
        · rw [if_pos hlt] at h hP
          cases hp : path[idx]? with
          | none => simp [pathAt, hp, bind, Except.bind] at h
          | some p =>
            simp only [hp, List.mem_cons] at hP
            simp only [pathAt, hp, bind, Except.bind] at h
            exact Aligned.down_even hcf hSA hSB hA hB hle (by omega) hlt (hP _ (Or.inl rfl))
              (ih (node / 2) (by omega) hSA' hSB' (fun q hq => hP q (Or.inr hq)) hlenA hlenB
                (by omega) h h' rfl)
        · rw [if_neg hlt] at h hP
          exact Aligned.down_last hcf hSA hSB hA hB hle (by omega) (by omega)
            (ih (node / 2) (by omega) hSA' hSB' hP hlenA hlenB (by omega) h h' rfl)
    · rw [if_neg hpos] at h hP
      have h0 : node = 0 := by omega
      subst h0
      simp only [Except.ok.injEq, Prod.mk.injEq] at h
      obtain ⟨rfl, rfl, rfl, rfl⟩ := h
      exact ⟨hA, hB, hle, getElem?_zero_of_length_one hA, climbNew_sound hcf hSB hP hB h',
        fun j hj => absurd hj (Nat.not_lt_zero j)⟩

/-- The next path element is the head of what is left of the path. -/
theorem pathAt_of_drop {rest : List HashOutput} (h : path.drop idx = p :: rest) :
    pathAt path idx e = .ok p ∧ path.drop (idx + 1) = rest ∧ idx + 1 ≤ path.length := by
  have hlt : idx < path.length := by
    by_contra hge
    simp [List.drop_eq_nil_of_le (by omega : path.length ≤ idx)] at h
  rw [List.drop_eq_getElem_cons hlt, List.cons.injEq] at h
  refine ⟨?_, h.2, hlt⟩
  rw [pathAt_eq_ok_iff, List.getElem?_eq_getElem hlt, h.1]

theorem climbNew_complete (hB : B.length = last + 1) (hs : B[0]? = some second)
    (hidx : idx ≤ path.length) (hpath : path.drop idx = siblings (hashNode H) B 0) :
    climbNew H path e last idx second = .ok (path.length, mth H B) := by
  induction hn : last using Nat.strong_induction_on generalizing B last idx second with
  | _ n ih =>
    subst hn
    rw [climbNew]
    by_cases hpos : last > 0
    · have hp : B[1]? = some B[1] := List.getElem?_eq_getElem (by omega)
      rw [Merkle.siblings_even (by omega) rfl hp] at hpath
      obtain ⟨hat, hdrop, hle⟩ := pathAt_of_drop (e := e) hpath
      have hup := Merkle.getElem?_pairUp (f := hashNode H) (j := 0) hs hp
      rw [if_pos hpos, hat]
      simp only [bind, Except.bind, Nat.shiftRight_one]
      rw [ih (last / 2) (by omega) (by rw [Merkle.length_pairUp]; omega) hup hle hdrop rfl,
        mth_pairUp]
    · have hend : path.length ≤ idx := by
        rw [Merkle.siblings_short (by omega)] at hpath
        exact List.drop_eq_nil_iff.mp hpath
      rw [getElem?_zero_of_length_one (H := H) (by omega)] at hs
      rw [if_neg hpos, Option.some.inj hs, show idx = path.length by omega]

/-- Fed the siblings of the old tree's last position, the loops reach both roots. -/
theorem climbBoth_complete (h : Aligned A B node last first second) (hidx : idx ≤ path.length)
    (hpath : path.drop idx = siblings (hashNode H) B node) :
    ∃ last' idx' s', climbBoth H path e node last idx first second =
        .ok (last', idx', mth H A, s') ∧
      climbNew H path e last' idx' s' = .ok (path.length, mth H B) := by
  induction hn : node using Nat.strong_induction_on
    generalizing A B node last idx first second with
  | _ n ih =>
    subst hn
    have hA := h.length_old
    have hB := h.length_new
    have hle := h.le
    rw [climbBoth]
    by_cases hpos : node > 0
    · simp only [if_pos hpos, Nat.and_one_is_mod, Nat.shiftRight_one]
      rw [← mth_pairUp A, ← mth_pairUp B]
      by_cases hodd : node % 2 = 1
      · have hp : B[node - 1]? = some B[node - 1] := List.getElem?_eq_getElem (by omega)
        rw [Merkle.siblings_odd (by omega) hodd hp] at hpath
        obtain ⟨hat, hdrop, hidx'⟩ := pathAt_of_drop (e := e) hpath
        rw [if_pos hodd, hat]
        exact ih (node / 2) (by omega) (h.up_odd hodd hp) hidx' hdrop rfl
      · rw [if_neg hodd]
        by_cases hlt : node < last
        · have hp : B[node + 1]? = some B[node + 1] := List.getElem?_eq_getElem (by omega)
          rw [Merkle.siblings_even (by omega) (by omega) hp] at hpath
          obtain ⟨hat, hdrop, hidx'⟩ := pathAt_of_drop (e := e) hpath
          rw [if_pos hlt, hat]
          exact ih (node / 2) (by omega) (h.up_even (by omega) hp) hidx' hdrop rfl
        · rw [Merkle.siblings_last (by omega) (by omega)] at hpath
          rw [if_neg hlt]
          exact ih (node / 2) (by omega) (h.up_last (by omega) (by omega)) hidx hpath rfl
    · have h0 : node = 0 := by omega
      subst h0
      have hf := h.first_eq
      rw [getElem?_zero_of_length_one (H := H) hA] at hf
      rw [if_neg hpos, Option.some.inj hf]
      exact ⟨last, idx, second, rfl, climbNew_complete hB h.second_eq hidx hpath⟩

end loops

theorem verify_eq_ok_iff {proof : ConsistencyProof} {oldRoot newRoot : HashOutput}
    (hpos : 0 < proof.oldSize.toNat) (hlt : proof.oldSize.toNat < proof.newSize.toNat)
    (hskip : skipOdd (proof.oldSize.toNat - 1) (proof.newSize.toNat - 1) = (node, last)) :
    verify H proof oldRoot newRoot = .ok () ↔
      ∃ e seed idx last' idx' s',
        e = consistencyPathLen proof.oldSize.toNat proof.newSize.toNat ∧ proof.path.length = e ∧
        seedOf proof.path e node oldRoot = .ok (seed, idx) ∧
        climbBoth H proof.path e node last idx seed seed = .ok (last', idx', oldRoot, s') ∧
        climbNew H proof.path e last' idx' s' = .ok (proof.path.length, newRoot) := by
  rw [verify]
  simp only [hskip, Outcome.ite_error_eq_ok_iff, if_neg hpos.ne', if_neg hlt.ne,
    Outcome.bind_eq_ok_iff, Prod.exists, Outcome.ite_else_error_eq_ok_iff, ne_eq, not_not]
  constructor
  · rintro ⟨-, hlen, seed, idx, hseed, last', idx', f, s', hboth, i, s, hnew, rfl, ⟨rfl, rfl⟩, -⟩
    exact ⟨_, seed, idx, last', idx', s', rfl, hlen, hseed, hboth, hnew⟩
  · rintro ⟨e, seed, idx, last', idx', s', rfl, hlen, hseed, hboth, hnew⟩
    exact ⟨by omega, hlen, seed, idx, hseed, last', idx', oldRoot, s', hboth, _, _, hnew, rfl,
      ⟨rfl, rfl⟩, trivial⟩

/-- An accepted proof between proper sizes leaves the old leaves at the front of the new. -/
theorem agree_of_verify {proof : ConsistencyProof} (hm : A.length = proof.oldSize.toNat)
    (hn : B.length = proof.newSize.toNat) (hpos : 0 < A.length) (hlt : A.length < B.length)
    (hcf : Merkle.CollisionFreeOn (hashNode H) S) (hSA : ∀ q ∈ mthPairs H A, q ∈ S)
    (hSB : ∀ q ∈ mthPairs H B, q ∈ S) (hP : ∀ q ∈ proof.verifyPairs H (mth H A), q ∈ S)
    (h : proof.verify H (mth H A) (mth H B) = .ok ()) :
    ∀ j < A.length, A[j]? = B[j]? := by
  obtain ⟨L⟩ := skippedLevel (H := H) (A := A) (B := B) (i := proof.oldSize.toNat - 1)
    (n := proof.newSize.toNat - 1) (by omega) (by omega) (by omega)
  have hskip := L.skip_eq
  obtain ⟨e, seed, idx, last', idx', s', rfl, hlen, hseed, hboth, hnew⟩ :=
    (verify_eq_ok_iff (by omega) (by omega) hskip).mp h
  rw [verifyPairs, if_neg (by omega), hskip] at hP
  simp only at hP
  rw [← L.mth_old] at hboth hseed hP
  rw [← L.mth_new] at hnew
  have hSA' := fun q hq => hSA q (L.pairs_old hq)
  have hSB' := fun q hq => hSB q (L.pairs_new hq)
  have hgoal : ∀ j < L.node' + 1, L.old[j]? = L.new[j]? := by
    have hal : Aligned L.old L.new L.node' L.last' seed seed := by
      unfold seedOf at hseed
      by_cases hnode : L.node' > 0
      · rw [if_pos hnode] at hseed hP
        obtain ⟨q, hq, he⟩ := Outcome.bind_eq_ok_iff.mp hseed
        obtain ⟨rfl, rfl⟩ : q = seed ∧ 1 = idx := by simpa using he
        rw [pathAt_eq_ok_iff.mp hq] at hP
        exact climbBoth_sound hcf hSA' hSB' hP L.length_old L.length_new L.lt.le hboth hnew
      · rw [if_neg hnode] at hseed hP
        obtain ⟨rfl, rfl⟩ : mth H L.old = seed ∧ 0 = idx := by simpa using hseed
        exact climbBoth_sound hcf hSA' hSB' hP L.length_old L.length_new L.lt.le hboth hnew
    intro j hj
    rcases Nat.lt_succ_iff_lt_or_eq.mp hj with hj | rfl
    · exact hal.agree j hj
    · rw [hal.first_eq, hal.second_eq]
  intro j hj
  exact L.agree_down S hcf hSA hSB hgoal j (by omega)

/-- No forged path passes: an accepted proof shows the old leaves to be a prefix of the new. -/
theorem verify_mth_imp_prefix (proof : ConsistencyProof)
    (hm : A.length = proof.oldSize.toNat) (hn : B.length = proof.newSize.toNat)
    (hcf : Merkle.CollisionFreeOn (hashNode H)
      {q | q ∈ mthPairs H A ∨ q ∈ mthPairs H B ∨ q ∈ proof.verifyPairs H (mth H A)})
    (h : proof.verify H (mth H A) (mth H B) = .ok ()) :
    A.length ≤ B.length ∧ A = B.take A.length := by
  have hle : A.length ≤ B.length := by
    rw [verify, Outcome.ite_error_eq_ok_iff] at h
    omega
  refine ⟨hle, ?_⟩
  by_cases hpos : 0 < A.length
  · by_cases hlt : A.length < B.length
    · have hagree := agree_of_verify hm hn hpos hlt hcf (fun q hq => Or.inl hq)
        (fun q hq => Or.inr (Or.inl hq)) (fun q hq => Or.inr (Or.inr hq)) h
      apply List.ext_getElem?
      intro j
      by_cases hj : j < A.length
      · rw [hagree j hj, List.getElem?_take_of_lt hj]
      · rw [List.getElem?_eq_none (by omega), List.getElem?_eq_none (by simp; omega)]
    · have heq : A.length = B.length := by omega
      have hroot : mth H A = mth H B := by
        rw [verify, if_neg (by omega)] at h
        simp only [if_neg (show ¬ proof.oldSize.toNat = 0 by omega),
          if_pos (show proof.oldSize.toNat = proof.newSize.toNat by omega)] at h
        have h' := (Outcome.ite_error_eq_ok_iff.mp h).2
        exact (Outcome.ite_else_error_eq_ok_iff.mp h').1
      rw [heq, List.take_length]
      rw [mth_eq_root, mth_eq_root] at hroot
      refine Merkle.eq_of_root_eq heq (List.ne_nil_of_length_pos hpos) (hcf.mono ?_) hroot
      rintro q (hq | hq)
      · exact Or.inl hq
      · exact Or.inr (Or.inl hq)
  · have hnil : A = [] := List.length_eq_zero_iff.mp (by omega)
    simp [hnil]

/-- Three leaf hashes and a fourth, to evaluate on. -/
def sampleOld : List HashOutput :=
  [⟨List.Vector.replicate 32 1⟩, ⟨List.Vector.replicate 32 2⟩, ⟨List.Vector.replicate 32 3⟩]

def sampleNew : List HashOutput := sampleOld ++ [⟨List.Vector.replicate 32 4⟩]

/-- The proof between them: last old leaf, its right neighbour, the left half. -/
def sampleProof : ConsistencyProof :=
  ⟨3, 4, [⟨List.Vector.replicate 32 3⟩, ⟨List.Vector.replicate 32 4⟩,
    hashNode residueHasher ⟨List.Vector.replicate 32 1⟩ ⟨List.Vector.replicate 32 2⟩]⟩

theorem verify_mth_imp_prefix_three_four :
    verify residueHasher sampleProof (mth residueHasher sampleOld)
        (mth residueHasher sampleNew) = .ok () ∧
      sampleOld.length ≤ sampleNew.length ∧ sampleOld = sampleNew.take sampleOld.length :=
  ⟨by decide +kernel,
    verify_mth_imp_prefix (H := residueHasher) sampleProof (by decide) (by decide)
      (Merkle.collisionFreeOn_of_forall_mem
        (mthPairs residueHasher sampleOld ++ (mthPairs residueHasher sampleNew ++
          verifyPairs residueHasher sampleProof (mth residueHasher sampleOld)))
        (by decide +kernel)
        (fun _ hp => List.mem_append.mpr (hp.imp id List.mem_append.mpr)))
      (by decide +kernel)⟩

/-- The path of a generated proof between proper sizes. -/
theorem generate_eq {tree : MerkleTree H} {m n : TreeSize} (hmn : m.toNat ≤ n.toNat)
    (hn : n.toNat ≤ tree.leaves.length) :
    generate tree m n = .ok ⟨m, n, if m.toNat = 0 ∨ m.toNat = n.toNat then [] else
      subproof (hashNode H) (emptyRoot H) (tree.leaves.take n.toNat) m.toNat true⟩ := by
  rw [generate, if_neg (by omega), if_neg (by rw [MerkleTree.len]; omega)]
  split
  · rfl
  · rw [collectSubproof_eq hn (by omega) (by omega), Slices.extract_zero]
    rfl

/-- The subproof between proper sizes passes verification. -/
theorem verify_subproof {leaves : List HashOutput} {m n : TreeSize} (hpos : 0 < m.toNat)
    (hlt : m.toNat < n.toNat) (hn : leaves.length = n.toNat) :
    verify H ⟨m, n, subproof (hashNode H) (emptyRoot H) leaves m.toNat true⟩
      (mth H (leaves.take m.toNat)) (mth H leaves) = .ok () := by
  obtain ⟨L⟩ := skippedLevel (H := H) (A := leaves.take m.toNat) (B := leaves)
    (i := m.toNat - 1) (n := n.toNat - 1) (by rw [List.length_take]; omega) (by omega)
    (by omega)
  have hagree := L.agree_up (fun j hj => List.getElem?_take_of_lt (by omega))
  have hlenA := L.length_old
  have hlenB := L.length_new
  have hltL := L.lt
  obtain ⟨a, hself⟩ : ∃ a, L.new[L.node']? = some a := ⟨_, List.getElem?_eq_getElem (by omega)⟩
  have hal : Aligned L.old L.new L.node' L.last' a a :=
    ⟨hlenA, hlenB, hltL.le, by rw [hagree _ (by omega), hself], hself,
      fun j hj => hagree j (by omega)⟩
  have hlen := consistencyPathLen_eq (f := hashNode H) (e := emptyRoot H) (l := leaves) hpos
    (by omega)
  have hpath := L.subproof_eq true
  rw [Merkle.subproof_odd (by have := L.even; omega) (by omega) (a := a)
    (by rw [Nat.add_sub_cancel, hself]), show m.toNat - 1 + 1 = m.toNat by omega,
    Nat.add_sub_cancel] at hpath
  rw [verify_eq_ok_iff hpos hlt L.skip_eq]
  simp only [← L.mth_old, ← L.mth_new, ← hn, hlen]
  generalize subproof (hashNode H) (emptyRoot H) leaves m.toNat true = path at hpath
  obtain ⟨seed, idx, hseed, hidx, hdrop, rfl⟩ : ∃ seed idx,
      seedOf path path.length L.node' (mth H L.old) = .ok (seed, idx) ∧ idx ≤ path.length ∧
      path.drop idx = siblings (hashNode H) L.new L.node' ∧ seed = a := by
    by_cases hnode : L.node' = 0
    · have hf := hal.first_eq
      rw [hnode, getElem?_zero_of_length_one (H := H) (by omega)] at hf
      rw [if_pos (by simpa using hnode), List.nil_append] at hpath
      exact ⟨_, 0, by rw [seedOf, if_neg (by omega)], by omega, hpath.symm, Option.some.inj hf⟩
    · rw [if_neg (by simpa using hnode)] at hpath
      refine ⟨a, 1, ?_, ?_, ?_, rfl⟩
      · rw [seedOf, if_pos (by omega), pathAt_eq_ok_iff.mpr (by rw [← hpath]; rfl)]
        rfl
      · simp [← hpath]
      · simp [← hpath]
  obtain ⟨last', idx', s', hboth, hnew⟩ :=
    climbBoth_complete (e := path.length) hal hidx hdrop
  exact ⟨_, seed, idx, last', idx', s', rfl, rfl, hseed, hboth, hnew⟩

/-- Between an empty or an equal pair of sizes the empty path is accepted. -/
theorem verify_nil {m n : TreeSize} (hmn : m.toNat ≤ n.toNat)
    (h : m.toNat = 0 ∨ m.toNat = n.toNat) (hA : A.length = m.toNat) (hB : B.length = n.toNat)
    (heq : m.toNat = n.toNat → A = B) :
    verify H ⟨m, n, []⟩ (mth H A) (mth H B) = .ok () := by
  have hlen : consistencyPathLen m.toNat n.toNat = 0 := by
    rw [consistencyPathLen, if_pos h]
  simp only [verify, hlen, List.length_nil, ne_eq, not_true_eq_false, if_false,
    if_neg (show ¬ m.toNat > n.toNat by omega)]
  by_cases hm : m.toNat = 0
  · have hnil : A = [] := List.length_eq_zero_iff.mp (by omega)
    have hroot : mth H A = emptyRoot H := by rw [hnil, mth]
    rw [if_pos hm, if_neg (by simp [hroot]), if_neg]
    rintro ⟨hn, hne⟩
    rw [← heq (by omega), hroot] at hne
    exact hne rfl
  · have hmn' : m.toNat = n.toNat := by omega
    rw [if_neg hm, if_pos hmn', heq hmn', if_pos rfl]

/-- The root of the tree at an earlier size, the empty root at size zero. -/
def historicalRoot (tree : MerkleTree H) (n : ℕ) : Option HashOutput :=
  if n = 0 then some (emptyRoot H) else tree.subtreeHash 0 n

theorem historicalRoot_eq {tree : MerkleTree H} {n : ℕ} (hn : n ≤ tree.leaves.length) :
    historicalRoot tree n = some (mth H (tree.leaves.take n)) := by
  unfold historicalRoot
  split
  · simp_all [mth]
  · rw [tree.subtreeHash_of_le (by omega) hn, Slices.extract_zero]

/-- Every pair of sizes of a tree has a proof, of the length the formula gives, that is
accepted against the roots the tree had at those sizes. -/
theorem generate_verifies_historical (H : Hasher) (entries : List LeafBytes) (m n : TreeSize)
    (hmn : m.toNat ≤ n.toNat) (hn : n.toNat ≤ entries.length) :
    ∃ proof oldRoot newRoot,
      generate ((MerkleTree.new (H := H)).appendAll entries) m n = .ok proof ∧
      proof.path.length = consistencyPathLen m.toNat n.toNat ∧
      historicalRoot ((MerkleTree.new (H := H)).appendAll entries) m.toNat = some oldRoot ∧
      historicalRoot ((MerkleTree.new (H := H)).appendAll entries) n.toNat = some newRoot ∧
      proof.verify H oldRoot newRoot = .ok () := by
  set tree := (MerkleTree.new (H := H)).appendAll entries with htree
  have hlen : tree.leaves.length = entries.length := by
    simp [htree, MerkleTree.appendAll_leaves, MerkleTree.new]
  have hn' : n.toNat ≤ tree.leaves.length := by omega
  have htake : (tree.leaves.take n.toNat).length = n.toNat := by
    rw [List.length_take]
    omega
  refine ⟨_, _, _, generate_eq hmn hn', ?_, historicalRoot_eq (by omega), historicalRoot_eq hn', ?_⟩
  · split
    · rw [consistencyPathLen, if_pos (by assumption)]
      rfl
    · have h := consistencyPathLen_eq (f := hashNode H) (e := emptyRoot H) (m := m.toNat)
        (l := tree.leaves.take n.toNat) (by omega) (by omega)
      rw [htake] at h
      rw [h]
  · split
    · rename_i htriv
      exact verify_nil hmn htriv (by rw [List.length_take]; omega) htake
        (fun h => by rw [h])
    · have htake₂ : tree.leaves.take m.toNat = (tree.leaves.take n.toNat).take m.toNat := by
        rw [List.take_take, min_eq_left hmn]
      rw [htake₂]
      exact verify_subproof (by omega) (by omega) htake

theorem generate_verifies_historical_two_three :
    ∃ proof oldRoot newRoot,
      generate ((MerkleTree.new : MerkleTree residueHasher).appendAll
        [⟨[0, 0]⟩, ⟨[0, 1]⟩, ⟨[0, 0]⟩]) 2 3 = .ok proof ∧
      proof.path.length = consistencyPathLen 2 3 ∧
      proof.verify residueHasher oldRoot newRoot = .ok () :=
  let ⟨proof, oldRoot, newRoot, hgen, hlen, _, _, hverify⟩ := generate_verifies_historical
    residueHasher [⟨[0, 0]⟩, ⟨[0, 1]⟩, ⟨[0, 0]⟩] 2 3 (by decide) (by decide)
  ⟨proof, oldRoot, newRoot, hgen, hlen, hverify⟩

end ConsistencyProof

end Mtc
