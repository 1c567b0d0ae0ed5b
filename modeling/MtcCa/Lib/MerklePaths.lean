import MtcCa.Lib.MerkleLevels

/-! Audit paths read level by level, and their agreement with the split recursion. -/
namespace Merkle

variable {α : Type*} {f : α → α → α} {z : α} {l : List α} {i m : ℕ} {a b : α}

/-- The sibling of position `i` on its own level; a promoted position has none. -/
def levelSibling (l : List α) (i : ℕ) : Option α :=
  if i % 2 = 1 then l[i - 1]? else l[i + 1]?

theorem siblings_short (h : l.length < 2) : siblings f l i = [] := by
  rw [siblings, if_neg (by omega)]

/-- One level of a path: the sibling there, if any, then the path one level up. -/
theorem siblings_level (hi : i < l.length) :
    siblings f l i = (levelSibling l i).toList ++ siblings f (pairUp f l) (i / 2) := by
  by_cases h : 2 ≤ l.length
  · rw [siblings, if_pos h, levelSibling]
  · obtain ⟨a, rfl⟩ : ∃ a, l = [a] := List.length_eq_one_iff.mp (by omega)
    have h0 : i = 0 := by simpa using hi
    subst h0
    simp [levelSibling, siblings_short]

theorem siblings_odd (hi : i < l.length) (hodd : i % 2 = 1) (ha : l[i - 1]? = some a) :
    siblings f l i = a :: siblings f (pairUp f l) (i / 2) := by
  rw [siblings_level hi]
  simp [levelSibling, hodd, ha]

theorem siblings_even (hi : i < l.length) (heven : i % 2 = 0) (ha : l[i + 1]? = some a) :
    siblings f l i = a :: siblings f (pairUp f l) (i / 2) := by
  rw [siblings_level hi]
  simp [levelSibling, heven, ha]

theorem siblings_last (hi : i + 1 = l.length) (heven : i % 2 = 0) :
    siblings f l i = siblings f (pairUp f l) (i / 2) := by
  rw [siblings_level (by omega)]
  simp [levelSibling, heven, List.getElem?_eq_none (by omega : l.length ≤ i + 1)]

/-- A position in a tree of at least two leaves has a sibling on some level. -/
theorem siblings_ne_nil (h : 2 ≤ l.length) (hi : i < l.length) : siblings f l i ≠ [] := by
  induction hn : l.length using Nat.strong_induction_on generalizing l i with
  | _ n ih =>
    by_cases hs : levelSibling l i = none
    · have heven : i % 2 = 0 := by
        by_contra hodd
        simp [levelSibling, show i % 2 = 1 by omega] at hs
        omega
      have hlast : i + 1 = l.length := by
        simp [levelSibling, heven] at hs
        omega
      rw [siblings_last hlast heven]
      exact ih _ (by rw [length_pairUp]; omega) (by rw [length_pairUp]; omega)
        (by rw [length_pairUp]; omega) rfl
    · obtain ⟨a, ha⟩ := Option.ne_none_iff_exists'.mp hs
      rw [siblings_level hi, ha]
      simp

theorem levelSibling_take {k : ℕ} (hk : k % 2 = 0) (hi : i < k) :
    levelSibling (l.take k) i = levelSibling l i := by
  unfold levelSibling
  split
  · rw [List.getElem?_take_of_lt (by omega)]
  · rw [List.getElem?_take_of_lt (by omega)]

theorem levelSibling_drop {k : ℕ} (hk : k % 2 = 0) (hi : k ≤ i) :
    levelSibling (l.drop k) (i - k) = levelSibling l i := by
  unfold levelSibling
  have hmod : (i - k) % 2 = i % 2 := by omega
  rw [hmod]
  split
  · rw [List.getElem?_drop, show k + (i - k - 1) = i - 1 by omega]
  · rw [List.getElem?_drop, show k + (i - k + 1) = i + 1 by omega]

/-- The path of a left position ends with the hash of the right part. -/
theorem siblings_split_left (h : 2 ≤ l.length) (hi : i < split l.length) :
    siblings f l i = siblings f (l.take (split l.length)) i ++
      [root f z (l.drop (split l.length))] := by
  induction hn : l.length using Nat.strong_induction_on generalizing l i with
  | _ n ih =>
    subst hn
    have hlt := split_lt h
    by_cases h3 : 3 ≤ l.length
    · have hhalf := split_half h3
      rw [siblings_level (by omega), siblings_level (l := l.take _) (by simp; omega),
        levelSibling_take (by omega) hi, List.append_assoc, hhalf, pairUp_take]
      have hup := ih (pairUp f l).length (by rw [length_pairUp]; omega) (l := pairUp f l)
        (i := i / 2) (by rw [length_pairUp]; omega) (by rw [length_pairUp]; omega) rfl
      rw [hup, length_pairUp, ← pairUp_drop, root_pairUp]
    · obtain ⟨a, b, rfl⟩ : ∃ a b, l = [a, b] := List.length_eq_two.mp (by omega)
      have h0 : i = 0 := by simpa [split_two] using hi
      subst h0
      rw [siblings_even (a := b) (by simp) (by simp) (by simp)]
      simp [siblings_short, split_two]

/-- The path of a right position ends with the hash of the left part. -/
theorem siblings_split_right (h : 2 ≤ l.length) (hi : i < l.length) (hk : split l.length ≤ i) :
    siblings f l i = siblings f (l.drop (split l.length)) (i - split l.length) ++
      [root f z (l.take (split l.length))] := by
  induction hn : l.length using Nat.strong_induction_on generalizing l i with
  | _ n ih =>
    subst hn
    have hlt := split_lt h
    by_cases h3 : 3 ≤ l.length
    · have hhalf := split_half h3
      rw [siblings_level hi, siblings_level (l := l.drop _) (by simp; omega),
        levelSibling_drop (by omega) hk, List.append_assoc, hhalf, pairUp_drop]
      have hup := ih (pairUp f l).length (by rw [length_pairUp]; omega) (l := pairUp f l)
        (i := i / 2) (by rw [length_pairUp]; omega) (by rw [length_pairUp]; omega)
        (by rw [length_pairUp]; omega) rfl
      have hdiv : (i - 2 * split ((l.length + 1) / 2)) / 2 =
          i / 2 - split ((l.length + 1) / 2) := by
        omega
      rw [hup, length_pairUp, ← pairUp_take, root_pairUp, hdiv]
    · obtain ⟨a, b, rfl⟩ : ∃ a b, l = [a, b] := List.length_eq_two.mp (by omega)
      have h1 : i = 1 := by simp [split_two] at hk hi; omega
      subst h1
      rw [siblings_odd (a := a) (by simp) (by simp) (by simp)]
      simp [siblings_short, split_two]

section subproof

variable (f z)

/-- The nodes that, with the old root, rebuild both the root over the first `m`
leaves and the root over all of `l`. The flag marks that the part is the whole
old tree, whose hash is then known. -/
def subproof (l : List α) (m : ℕ) (whole : Bool) : List α :=
  if m < l.length ∧ 2 ≤ l.length then
    if m ≤ split l.length then
      subproof (l.take (split l.length)) m whole ++ [root f z (l.drop (split l.length))]
    else
      subproof (l.drop (split l.length)) (m - split l.length) false ++
        [root f z (l.take (split l.length))]
  else if whole then [] else [root f z l]
termination_by l.length
decreasing_by
  all_goals
    have hl : 2 ≤ l.length := by omega
    have := split_pos l.length
    have := split_lt hl
    simp only [List.length_take, List.length_drop]
    omega

end subproof

theorem subproof_whole {whole : Bool} (h : l.length ≤ m ∨ l.length < 2) :
    subproof f z l m whole = if whole then [] else [root f z l] := by
  rw [subproof, if_neg (by omega)]

theorem subproof_left {whole : Bool} (h : m < l.length) (h2 : 2 ≤ l.length)
    (hm : m ≤ split l.length) :
    subproof f z l m whole = subproof f z (l.take (split l.length)) m whole ++
      [root f z (l.drop (split l.length))] := by
  rw [subproof, if_pos ⟨h, h2⟩, if_pos hm]

theorem subproof_right {whole : Bool} (h : m < l.length) (h2 : 2 ≤ l.length)
    (hm : split l.length < m) :
    subproof f z l m whole =
      subproof f z (l.drop (split l.length)) (m - split l.length) false ++
        [root f z (l.take (split l.length))] := by
  rw [subproof, if_pos ⟨h, h2⟩, if_neg (by omega)]

/-- An even old size can be halved together with the level. -/
theorem subproof_even {whole : Bool} (hm : m % 2 = 0) (hpos : 0 < m) (hle : m ≤ l.length) :
    subproof f z l m whole = subproof f z (pairUp f l) (m / 2) whole := by
  induction hn : l.length using Nat.strong_induction_on generalizing l m whole with
  | _ n ih =>
    subst hn
    by_cases hml : m < l.length
    · have h3 : 3 ≤ l.length := by omega
      have hlt := split_lt (n := l.length) (by omega)
      have hsp := split_pos l.length
      have hhalf := split_half h3
      by_cases hk : m ≤ split l.length
      · rw [subproof_left hml (by omega) hk,
          subproof_left (l := pairUp f l) (by rw [length_pairUp]; omega)
            (by rw [length_pairUp]; omega) (by rw [length_pairUp]; omega), length_pairUp,
          ← pairUp_take, ← pairUp_drop, root_pairUp, ← hhalf]
        rw [ih _ (by rw [List.length_take]; omega) hm hpos (by rw [List.length_take]; omega) rfl]
      · rw [subproof_right hml (by omega) (by omega),
          subproof_right (l := pairUp f l) (by rw [length_pairUp]; omega)
            (by rw [length_pairUp]; omega) (by rw [length_pairUp]; omega), length_pairUp,
          ← pairUp_take, ← pairUp_drop, root_pairUp, ← hhalf]
        rw [ih _ (by rw [List.length_drop]; omega) (by omega) (by omega)
          (by rw [List.length_drop]; omega) rfl,
          show (m - split l.length) / 2 = m / 2 - split ((l.length + 1) / 2) by omega]
    · rw [subproof_whole (by omega), subproof_whole (by rw [length_pairUp]; omega), root_pairUp]

/-- At an odd old size the proof is the last old leaf, unless it is the whole old
tree, and then the path of that leaf. -/
theorem subproof_odd {whole : Bool} (hm : m % 2 = 1) (hle : m < l.length ∨ l.length = 1)
    (ha : l[m - 1]? = some a) :
    subproof f z l m whole =
      (if whole = true ∧ m = 1 then [] else [a]) ++ siblings f l (m - 1) := by
  induction hn : l.length using Nat.strong_induction_on generalizing l m whole with
  | _ n ih =>
    subst hn
    by_cases hml : m < l.length
    · have h2 : 2 ≤ l.length := by omega
      have hlt := split_lt h2
      have hsp := split_pos l.length
      by_cases hk : m ≤ split l.length
      · rw [subproof_left hml h2 hk, siblings_split_left (z := z) h2 (by omega),
          ih _ (by rw [List.length_take]; omega) hm _ _ rfl, List.append_assoc]
        · -- an odd split point is the split of two leaves
          by_cases h3 : 3 ≤ l.length
          · have := split_half h3
            rw [List.length_take]
            omega
          · rw [List.length_take]
            omega
        · rw [List.getElem?_take_of_lt (by omega), ha]
      · have hodd : split l.length % 2 = 0 := by
          by_cases h3 : 3 ≤ l.length
          · have := split_half h3
            omega
          · omega
        rw [subproof_right hml h2 (by omega),
          siblings_split_right (z := z) h2 (by omega) (by omega),
          ih _ (by rw [List.length_drop]; omega) (by omega)
            (by rw [List.length_drop]; omega) _ rfl, if_neg (by simp), if_neg (by omega),
          show m - split l.length - 1 = m - 1 - split l.length by omega, List.append_assoc]
        rw [List.getElem?_drop, ← ha]
        congr 1
        omega
    · obtain ⟨x, rfl⟩ : ∃ x, l = [x] := List.length_eq_one_iff.mp (by omega)
      have h1 : m = 1 := by
        have := List.getElem?_eq_some_iff.mp ha
        simp at this
        omega
      subst h1
      have hx : x = a := by simpa using ha
      subst hx
      rw [subproof_whole (by simp), siblings_short (by simp)]
      cases whole <;> simp

end Merkle
