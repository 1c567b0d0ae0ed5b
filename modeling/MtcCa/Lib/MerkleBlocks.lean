import MtcCa.Lib.MerkleLevels
import MtcCa.Lib.Slices

/-! Merkle tree hashes assembled from aligned power-of-two blocks. -/
namespace Merkle

variable {α : Type*} {f : α → α → α} {z : α} {l : List α}

theorem split_two_pow (a : ℕ) : split (2 ^ (a + 1)) = 2 ^ a := by
  have hpos := Nat.two_pow_pos a
  apply split_unique <;> rw [pow_succ] <;> omega

/-- The hashes of the `k` consecutive blocks of `w` leaves. -/
def blockRoots (f : α → α → α) (z : α) (l : List α) (w k : ℕ) : List α :=
  (List.range k).map (fun j => root f z (l.extract (j * w) ((j + 1) * w)))

theorem length_blockRoots (w k : ℕ) : (blockRoots f z l w k).length = k := by
  simp [blockRoots]

theorem blockRoots_take {w k m : ℕ} (h : k ≤ m) :
    (blockRoots f z l w m).take k = blockRoots f z (l.take (k * w)) w k := by
  rw [blockRoots, ← List.map_take, List.take_range, min_eq_left h]
  apply List.map_congr_left
  intro j hj
  have hle : (j + 1) * w ≤ k * w := Nat.mul_le_mul_right w (List.mem_range.mp hj)
  rw [← Slices.extract_zero, List.extract_eq_take_drop, List.extract_eq_take_drop,
    Slices.drop_extract, Nat.zero_add, List.extract_eq_take_drop, List.take_take,
    min_eq_left (by omega)]

theorem blockRoots_drop (w k m : ℕ) :
    (blockRoots f z l w (k + m)).drop k = blockRoots f z (l.drop (k * w)) w m := by
  rw [blockRoots, List.range_add, List.map_append, List.drop_left' (by simp), List.map_map]
  apply List.map_congr_left
  intro j _
  simp only [Function.comp, List.extract_eq_take_drop, List.drop_drop]
  rw [show (k + j) * w = k * w + j * w by ring,
    show (k + j + 1) * w = k * w + (j + 1) * w by ring, Nat.add_sub_add_left]

/-- The root over a power of two of equal power-of-two blocks is the root of their hashes. -/
theorem root_blockRoots {a c : ℕ} (hl : l.length = 2 ^ a * 2 ^ c) :
    root f z (blockRoots f z l (2 ^ c) (2 ^ a)) = root f z l := by
  induction a generalizing l with
  | zero =>
    have hfull : l.take (2 ^ c) = l := List.take_of_length_le (by omega)
    simp [blockRoots, hfull]
  | succ a ih =>
    have hpa := Nat.two_pow_pos a
    have hpc := Nat.two_pow_pos c
    have hhalf : 2 ^ (a + 1) = 2 ^ a + 2 ^ a := by rw [pow_succ]; omega
    have hlen : l.length = 2 ^ (a + c + 1) := by
      rw [hl, ← pow_add]
      congr 1
      omega
    have hmul : 2 ^ (a + c) = 2 ^ a * 2 ^ c := pow_add 2 a c
    have hdouble : 2 ^ (a + c + 1) = 2 * (2 ^ a * 2 ^ c) := by rw [pow_succ, hmul]; ring
    have hge : 0 < 2 ^ a * 2 ^ c := Nat.mul_pos hpa hpc
    rw [root_split (l := l) (by omega), root_split (l := blockRoots _ _ _ _ _)
      (by rw [length_blockRoots]; omega), length_blockRoots, hlen, split_two_pow, split_two_pow,
      blockRoots_take (by omega), hhalf, blockRoots_drop, hmul,
      ih (by rw [List.length_take]; omega), ih (by rw [List.length_drop]; omega)]

/-- Off a power of two, the root splits at the largest power of two in the length. -/
theorem root_split_log2 (h : 2 ^ l.length.log2 < l.length) :
    root f z l = f (root f z (l.take (2 ^ l.length.log2)))
      (root f z (l.drop (2 ^ l.length.log2))) := by
  have hpos := Nat.two_pow_pos l.length.log2
  have hlt : l.length < 2 ^ (l.length.log2 + 1) :=
    (Nat.log2_lt (by omega)).mp (Nat.lt_succ_self _)
  rw [pow_succ] at hlt
  rw [root_split (by omega), split_unique h (by omega)]

end Merkle
