import MtcCa.Tree.Partition

/-! The leaves that a tile covers (`crates/mtc/src/tile/coord.rs`): the ranges of a level's tiles
partition the leaves under its stored hashes. -/
namespace Mtc

namespace TileCoord

/-- The half-open range of leaves under the tile's hashes, on 128-bit words; `none` where an end
does not fit 64 bits. -/
def leafRange (c : TileCoord) : Option (ℕ × ℕ) :=
  if c.level > maxLevel then none
  else do
    let spanBelow := leafSpan c.level
    let tileSpan ← Checked.mul 128 spanBelow fullTileHashes
    let startU128 ← Checked.mul 128 c.index tileSpan
    let start ← Checked.narrow 64 startU128
    let widthLeaves ← Checked.mul 128 c.width.get spanBelow
    let stopU128 ← Checked.add 128 startU128 widthLeaves
    let stop ← Checked.narrow 64 stopU128
    some (start, stop)

/-- The first leaf under the tile and the first one past it, without any bound. -/
def leafStart (c : TileCoord) : ℕ := c.index * 256 ^ (c.level + 1)

def leafEnd (c : TileCoord) : ℕ := c.leafStart + c.width.get * 256 ^ c.level

variable {c : TileCoord}

theorem lt_leafEnd (c : TileCoord) : c.leafStart < c.leafEnd :=
  Nat.lt_add_of_pos_right (Nat.mul_pos c.width.pos (Nat.pow_pos (by omega)))

/-- Beyond the last level of a 64-bit tree every tile ends past the 64-bit words. -/
theorem le_leafEnd_of_level (h : c.level > maxLevel) : 2 ^ 64 ≤ c.leafEnd := by
  have hpow : 256 ^ 8 ≤ 256 ^ c.level := Nat.pow_le_pow_right (by omega) (Nat.le_of_lt h)
  have hwidth : 256 ^ c.level ≤ c.width.get * 256 ^ c.level := Nat.le_mul_of_pos_left _ c.width.pos
  have hle : c.width.get * 256 ^ c.level ≤ c.leafEnd := Nat.le_add_left _ _
  omega

/-- No check fails before the end of the range does not fit. -/
theorem leafRange_eq (c : TileCoord) :
    c.leafRange = if c.leafEnd < 2 ^ 64 then some (c.leafStart, c.leafEnd) else none := by
  have hlt := c.lt_leafEnd
  have hend : c.leafEnd = c.leafStart + c.width.get * 256 ^ c.level := rfl
  unfold leafRange
  by_cases hlevel : c.level > maxLevel
  · rw [if_pos hlevel, if_neg (Nat.not_lt.mpr (le_leafEnd_of_level hlevel))]
  · have hspan : 256 ^ (c.level + 1) < 2 ^ 128 := by
      have hle : 256 ^ (c.level + 1) ≤ 256 ^ 9 :=
        Nat.pow_le_pow_right (by omega) (by rw [maxLevel] at hlevel; omega)
      omega
    have htile : Checked.mul 128 (leafSpan c.level) fullTileHashes =
        some (256 ^ (c.level + 1)) := by
      rw [leafSpan_eq, fullTileHashes_eq, pow_succ]
      exact Checked.mul_eq hspan
    rw [if_neg hlevel]
    simp only [htile, Option.bind_eq_bind, Option.bind_some]
    simp only [Checked.mul_eq_narrow, Checked.add_eq_narrow, Checked.bind_narrow, leafSpan_eq]
    rw [show c.index * 256 ^ (c.level + 1) = c.leafStart from rfl]
    generalize c.width.get * 256 ^ c.level = widthLeaves at hend
    rw [← hend]
    split_ifs
    all_goals first | rfl | omega

/-- The range is missing only when its true end is not a 64-bit number. -/
theorem leafRange_eq_none_iff : c.leafRange = none ↔ 2 ^ 64 ≤ c.leafEnd := by
  rw [leafRange_eq]
  split
  · next h => exact iff_of_false (Option.some_ne_none _) (Nat.not_le.mpr h)
  · next h => exact iff_of_true rfl (Nat.le_of_not_lt h)

end TileCoord

/-- The leaves of the tile at a position that the tree size gives a width. -/
def tileRange (treeSize : TreeSize) (level index : ℕ) : Option Subtree := do
  let width ← tileWidth level index treeSize
  let (start, stop) ← (⟨level, index, width⟩ : TileCoord).leafRange
  some ⟨start, stop⟩

/-- How many tiles a level has. -/
def tileCount (treeSize : TreeSize) (level : ℕ) : ℕ := (hashesAtLevel treeSize level + 255) / 256

/-- The leaf ranges of a level's tiles, left to right. -/
def levelRanges (treeSize : TreeSize) (level : ℕ) : List Subtree :=
  (List.range (tileCount treeSize level)).filterMap (tileRange treeSize level)

variable {n : TreeSize} {level index m : ℕ}

theorem tileWidth_isSome_iff :
    (tileWidth level index n).isSome = true ↔ index < tileCount n level := by
  have hcount : index < tileCount n level ↔ index * 256 < hashesAtLevel n level := by
    rw [tileCount]
    omega
  rw [hcount]
  constructor
  · intro h
    by_contra hge
    have hnone : tileWidth level index n = none := by
      simp only [tileWidth]
      split_ifs with hfit hcount
      · rfl
      · rfl
      · exact absurd (Nat.le_of_not_lt hge) hcount
    rw [hnone] at h
    cases h
  · intro h
    rw [tileWidth_eq_some h]
    rfl

theorem tileRange_bounds (h : index < tileCount n level) :
    index * 256 * 256 ^ level < min ((index + 1) * 256) (hashesAtLevel n level) * 256 ^ level ∧
      min ((index + 1) * 256) (hashesAtLevel n level) * 256 ^ level ≤ n.toNat := by
  have hindex : index * 256 < hashesAtLevel n level := by
    rw [tileCount] at h
    omega
  refine ⟨Nat.mul_lt_mul_of_pos_right (by omega) (Nat.pow_pos (by omega)), ?_⟩
  exact (Nat.mul_le_mul_right _ (Nat.min_le_right _ _)).trans (hashesAtLevel_mul_le n level)

/-- A tile of the level starts where the full tiles before it end, and ends at the next start or
at the last stored hash. -/
theorem tileRange_eq (h : index < tileCount n level) :
    tileRange n level index = some ⟨index * 256 * 256 ^ level,
      min ((index + 1) * 256) (hashesAtLevel n level) * 256 ^ level⟩ := by
  have hindex : index * 256 < hashesAtLevel n level := by
    rw [tileCount] at h
    omega
  have hstart : index * 256 ^ (level + 1) = index * 256 * 256 ^ level := by
    rw [pow_succ, Nat.mul_assoc, Nat.mul_comm 256]
  have hend : index * 256 * 256 ^ level +
      min (hashesAtLevel n level - index * 256) 256 * 256 ^ level =
        min ((index + 1) * 256) (hashesAtLevel n level) * 256 ^ level := by
    rw [← Nat.add_mul]
    congr 1
    omega
  have hle := (tileRange_bounds h).2
  have hn := n.toNat_lt
  rw [tileRange, tileWidth_eq_some hindex, Option.bind_eq_bind, Option.bind_some,
    TileCoord.leafRange_eq]
  simp only [TileCoord.leafEnd, TileCoord.leafStart, hstart, hend]
  rw [if_pos (lt_of_le_of_lt hle hn)]
  rfl

/-- The first `m` tiles of a level cover the leaves under its first `256 * m` hashes. -/
theorem consecutive_levelRanges (n : TreeSize) (level : ℕ) (hm : m ≤ tileCount n level) :
    Consecutive 0 (min (m * 256) (hashesAtLevel n level) * 256 ^ level)
      ((List.range m).filterMap (tileRange n level)) := by
  induction m with
  | zero =>
    rw [Nat.zero_mul, Nat.zero_min, Nat.zero_mul]
    exact rfl
  | succ m ih =>
    have hindex : m * 256 < hashesAtLevel n level := by
      rw [tileCount] at hm
      omega
    rw [List.range_succ, List.filterMap_append]
    refine (ih (by omega)).append ?_
    rw [List.filterMap_cons, tileRange_eq (by omega), List.filterMap_nil]
    refine ⟨?_, (tileRange_bounds (by omega)).1, rfl⟩
    rw [min_eq_left hindex.le]

theorem tileCount_hashes :
    min (tileCount n level * 256) (hashesAtLevel n level) = hashesAtLevel n level := by
  rw [tileCount]
  omega

/-- The level's ranges lead from the first leaf to the last one under a stored hash. -/
theorem levelRanges_consecutive (n : TreeSize) (level : ℕ) :
    Consecutive 0 (hashesAtLevel n level * 256 ^ level) (levelRanges n level) := by
  have h := consecutive_levelRanges n level le_rfl
  rwa [tileCount_hashes] at h

/-- The tiles of a level of any tree split the leaves under its stored hashes into ranges of the
tree, and a range goes missing only when its end is no 64-bit number. -/
theorem leafRange_partitions (n : TreeSize) (level : ℕ) :
    (∀ index, (tileWidth level index n).isSome = true ↔ index < tileCount n level) ∧
    (∀ index < tileCount n level, ∃ range, tileRange n level index = some range ∧
      range.start < range.stop ∧ range.stop ≤ n.toNat) ∧
    Consecutive 0 (hashesAtLevel n level * 256 ^ level) (levelRanges n level) ∧
    (levelRanges n level).Pairwise (fun x y => x.stop ≤ y.start) ∧
    (∀ leaf, (∃ range ∈ levelRanges n level, range.start ≤ leaf ∧ leaf < range.stop) ↔
      leaf < hashesAtLevel n level * 256 ^ level) ∧
    (∀ c : TileCoord, (c.leafRange = none ↔ 2 ^ 64 ≤ c.leafEnd) ∧
      (c.leafEnd < 2 ^ 64 → c.leafRange = some (c.leafStart, c.leafEnd))) := by
  have hconsecutive := levelRanges_consecutive n level
  refine ⟨fun _ => tileWidth_isSome_iff, fun index hindex => ?_, hconsecutive,
    hconsecutive.pairwise, fun leaf => ?_, fun c => ⟨TileCoord.leafRange_eq_none_iff, ?_⟩⟩
  · obtain ⟨hlt, hle⟩ := tileRange_bounds hindex
    exact ⟨_, tileRange_eq hindex, hlt, hle⟩
  · rw [hconsecutive.covered]
    exact and_iff_right (Nat.zero_le _)
  · intro h
    rw [TileCoord.leafRange_eq, if_pos h]

end Mtc
