import Mathlib

/-! Merkle tree hashes over an arbitrary two-child hash: the split recursion and
its level-by-level reading. Nothing here depends on a concrete hash function. -/
namespace Merkle

/-- The largest power of two strictly below `n`, for `n ≥ 2`. -/
def split (n : ℕ) : ℕ := 2 ^ Nat.log2 (n - 1)

theorem split_pos (n : ℕ) : 0 < split n := Nat.two_pow_pos _

theorem split_lt {n : ℕ} (h : 2 ≤ n) : split n < n := by
  have hle := Nat.log2_self_le (n := n - 1) (by omega)
  unfold split
  omega

theorem le_two_mul_split {n : ℕ} (h : 2 ≤ n) : n ≤ 2 * split n := by
  have hlt : n - 1 < 2 ^ (Nat.log2 (n - 1) + 1) :=
    (Nat.log2_lt (by omega)).mp (Nat.lt_succ_self _)
  unfold split
  rw [pow_succ] at hlt
  omega

/-- A power of two that splits `n` the way `split` does is `split n`. -/
theorem split_unique {n a : ℕ} (hlt : 2 ^ a < n) (hle : n ≤ 2 * 2 ^ a) : split n = 2 ^ a := by
  have hpos := Nat.two_pow_pos a
  have hlog : Nat.log2 (n - 1) = a := by
    rw [Nat.log2_eq_iff (by omega), pow_succ]
    omega
  rw [split, hlog]

/-- Above two leaves the split point is even, and halving the level halves it. -/
theorem split_half {n : ℕ} (h : 3 ≤ n) : split n = 2 * split ((n + 1) / 2) := by
  have hm : 2 ≤ (n + 1) / 2 := by omega
  have hlt := split_lt hm
  have hle := le_two_mul_split hm
  have hpow : 2 * split ((n + 1) / 2) = 2 ^ (Nat.log2 ((n + 1) / 2 - 1) + 1) := by
    rw [split, pow_succ, Nat.mul_comm]
  rw [hpow]
  apply split_unique
  · rw [← hpow]
    omega
  · rw [← hpow]
    omega

theorem split_two : split 2 = 1 := rfl

variable {α : Type*} (f : α → α → α) (z : α)

/-- The Merkle tree hash: split at the largest power of two below the length. -/
def root (l : List α) : α :=
  match l with
  | [] => z
  | [a] => a
  | a :: b :: t =>
    f (root ((a :: b :: t).take (split (t.length + 2))))
      (root ((a :: b :: t).drop (split (t.length + 2))))
termination_by l.length
decreasing_by
  · have := split_lt (n := t.length + 2) (by omega)
    simp only [List.length_take, List.length_cons]
    omega
  · have := split_pos (t.length + 2)
    simp only [List.length_drop, List.length_cons]
    omega

/-- Every pair of hashes that computing `root` passes to `f`. -/
def nodePairs (l : List α) : List (α × α) :=
  if 2 ≤ l.length then
    (root f z (l.take (split l.length)), root f z (l.drop (split l.length))) ::
      (nodePairs (l.take (split l.length)) ++ nodePairs (l.drop (split l.length)))
  else []
termination_by l.length
decreasing_by
  all_goals
    have := split_pos l.length
    have := split_lt (n := l.length) (by assumption)
    simp only [List.length_take, List.length_drop]
    omega

/-- One level up: neighbours are hashed, an unpaired last hash is promoted. -/
def pairUp : List α → List α
  | [] => []
  | [a] => [a]
  | a :: b :: t => f a b :: pairUp t

@[simp] theorem length_pairUp (l : List α) : (pairUp f l).length = (l.length + 1) / 2 := by
  induction l using pairUp.induct with
  | case1 => simp [pairUp]
  | case2 a => simp [pairUp]
  | case3 a b t ih =>
    simp only [pairUp, List.length_cons, ih]
    omega

/-- The siblings met when climbing from position `i`, lowest level first. -/
def siblings (l : List α) (i : ℕ) : List α :=
  if 2 ≤ l.length then
    (if i % 2 = 1 then l[i - 1]? else l[i + 1]?).toList ++ siblings (pairUp f l) (i / 2)
  else []
termination_by l.length
decreasing_by
  rw [length_pairUp]
  omega

section levels

variable {f z}

@[simp] theorem root_nil : root f z [] = z := by rw [root]

@[simp] theorem root_singleton (a : α) : root f z [a] = a := by rw [root]

theorem root_split {l : List α} (h : 2 ≤ l.length) :
    root f z l = f (root f z (l.take (split l.length)))
      (root f z (l.drop (split l.length))) := by
  match l, h with
  | a :: b :: t, _ => rw [root, List.length_cons, List.length_cons]

@[simp] theorem pairUp_nil : pairUp f [] = [] := rfl

@[simp] theorem pairUp_singleton (a : α) : pairUp f [a] = [a] := rfl

@[simp] theorem pairUp_cons₂ (a b : α) (t : List α) :
    pairUp f (a :: b :: t) = f a b :: pairUp f t := rfl

theorem pairUp_take (l : List α) (j : ℕ) :
    pairUp f (l.take (2 * j)) = (pairUp f l).take j := by
  induction j generalizing l with
  | zero => simp
  | succ j ih =>
    match l with
    | [] => simp
    | [a] => simp [Nat.mul_succ]
    | a :: b :: t => simp [Nat.mul_succ, ih]

theorem pairUp_drop (l : List α) (j : ℕ) :
    pairUp f (l.drop (2 * j)) = (pairUp f l).drop j := by
  induction j generalizing l with
  | zero => simp
  | succ j ih =>
    match l with
    | [] => simp
    | [a] => simp [Nat.mul_succ]
    | a :: b :: t => simp [Nat.mul_succ, ih]

/-- A paired position holds the hash of its two children. -/
theorem getElem?_pairUp {l : List α} {j : ℕ} {a b : α} (ha : l[2 * j]? = some a)
    (hb : l[2 * j + 1]? = some b) : (pairUp f l)[j]? = some (f a b) := by
  induction j generalizing l with
  | zero =>
    match l, ha, hb with
    | x :: y :: t, ha, hb => simp_all
  | succ j ih =>
    match l, ha, hb with
    | x :: y :: t, ha, hb =>
      simp only [pairUp_cons₂, List.getElem?_cons_succ]
      exact ih (by simpa [Nat.mul_succ] using ha) (by simpa [Nat.mul_succ] using hb)

/-- An unpaired last position is carried up unchanged. -/
theorem getElem?_pairUp_last {l : List α} {j : ℕ} (h : l.length = 2 * j + 1) :
    (pairUp f l)[j]? = l[2 * j]? := by
  induction j generalizing l with
  | zero =>
    match l, h with
    | [a], _ => rfl
  | succ j ih =>
    match l, h with
    | x :: y :: t, h =>
      simp only [pairUp_cons₂, List.getElem?_cons_succ]
      rw [ih (by simp at h; omega), Nat.mul_succ]
      simp

/-- The level above has the same Merkle tree hash. -/
theorem root_pairUp (l : List α) : root f z (pairUp f l) = root f z l := by
  induction hn : l.length using Nat.strong_induction_on generalizing l with
  | _ n ih =>
    match l, hn with
    | [], _ => rfl
    | [a], _ => rfl
    | [a, b], _ => rw [root_split (l := [a, b]) (by simp)]; simp [split_two]
    | a :: b :: c :: t, hn =>
      generalize hl : a :: b :: c :: t = l at hn
      have hn3 : 3 ≤ l.length := by simp [← hl]
      have hlt := split_lt (n := l.length) (by omega)
      have hpos := split_pos l.length
      have hhalf := split_half hn3
      rw [root_split (l := l) (by omega), root_split (l := pairUp f l) (by simp; omega),
        length_pairUp, ← pairUp_take, ← pairUp_drop, ← hhalf,
        ih _ (by rw [List.length_take]; omega) _ rfl,
        ih _ (by rw [List.length_drop]; omega) _ rfl]

end levels

end Merkle
