import MtcCa.Tile.BuildCorrect

/-! Which tile sets a root is recovered from: the level-0 tiles must be numbered without a gap,
but nothing requires those before the last to be full. -/
namespace Mtc

variable {H : Hasher} {tiles cover : List Tile} {expected : ℕ} {leaves out : List HashOutput}
  {root : HashOutput}

/-- The level-0 tiles of a tile set, as they come. -/
def leafTiles (tiles : List Tile) : List Tile := tiles.filter (fun t => t.coord.level = 0)

/-- The level-0 tiles in order: tile `j` starts at leaf `256 * j`, and the next one follows its
last leaf. -/
structure LeafCover (tiles cover : List Tile) : Prop where
  perm : cover.Perm (leafTiles tiles)
  ne_nil : cover ≠ []
  index : ∀ (j : ℕ) (t : Tile), cover[j]? = some t → t.coord.index = j
  full : ∀ (j : ℕ) (t : Tile), cover[j]? = some t → j + 1 < cover.length →
    t.coord.width.get = fullTileHashes

/-- The indices of the level-0 tiles run from zero without a gap or a duplicate. -/
def Numbered (tiles : List Tile) : Prop :=
  ((leafTiles tiles).map (fun t => t.coord.index)).Perm (List.range (leafTiles tiles).length)

/-- Some level-0 tile is partial although another one follows it. -/
def PartialInside (tiles : List Tile) : Prop :=
  ∃ t ∈ leafTiles tiles, t.coord.index + 1 < (leafTiles tiles).length ∧
    t.coord.width.get ≠ fullTileHashes

theorem level0_perm : (level0 tiles).Perm (leafTiles tiles) := List.mergeSort_perm _ _

theorem level0_sorted : (level0 tiles).Pairwise (fun a b => a.coord.index ≤ b.coord.index) := by
  have htrans : ∀ a b c : Tile, decide (a.coord.index ≤ b.coord.index) = true →
      decide (b.coord.index ≤ c.coord.index) = true →
        decide (a.coord.index ≤ c.coord.index) = true := by
    intro a b c hab hbc
    exact decide_eq_true ((of_decide_eq_true hab).trans (of_decide_eq_true hbc))
  have htotal : ∀ a b : Tile, (decide (a.coord.index ≤ b.coord.index) ||
      decide (b.coord.index ≤ a.coord.index)) = true := by
    intro a b
    simpa using Nat.le_total a.coord.index b.coord.index
  exact (List.pairwise_mergeSort htrans htotal (leafTiles tiles)).imp of_decide_eq_true

theorem coverFrom_eq_some_iff :
    coverFrom expected leaves tiles = some out ↔
      (∀ (j : ℕ) (t : Tile), tiles[j]? = some t → t.coord.index = expected + j) ∧
        out = leaves ++ tiles.flatMap Tile.hashes := by
  induction tiles generalizing expected leaves with
  | nil => simp [coverFrom, eq_comm]
  | cons tile rest ih =>
    rw [coverFrom]
    by_cases hindex : tile.coord.index = expected
    · rw [if_neg (not_not.mpr hindex), ih, List.flatMap_cons, ← List.append_assoc]
      refine and_congr_left' ⟨?_, ?_⟩
      · intro h j t ht
        cases j with
        | zero =>
          cases ht
          exact hindex
        | succ j =>
          rw [h j t ht]
          omega
      · intro h j t ht
        rw [h (j + 1) t ht]
        omega
    · rw [if_pos hindex]
      constructor
      · intro h
        cases h
      · rintro ⟨h, -⟩
        exact absurd (h 0 tile rfl) hindex

/-- A root is returned exactly when the sorted tiles are numbered from zero. -/
theorem reconstructRoot_eq_some_iff :
    reconstructRoot H tiles = some root ↔
      level0 tiles ≠ [] ∧ (∀ (j : ℕ) (t : Tile), (level0 tiles)[j]? = some t → t.coord.index = j) ∧
        root = mth H ((level0 tiles).flatMap Tile.hashes) := by
  unfold reconstructRoot
  by_cases hnil : level0 tiles = []
  · simp [hnil]
  · rw [if_neg (by simpa using hnil)]
    simp only [Option.bind_eq_bind, Option.bind_eq_some_iff, coverFrom_eq_some_iff, Nat.zero_add,
      List.nil_append, combineSubtreeRoots]
    constructor
    · rintro ⟨leaves, ⟨hindex, rfl⟩, hroot⟩
      exact ⟨hnil, hindex, (Option.some.inj hroot).symm⟩
    · rintro ⟨-, hindex, rfl⟩
      exact ⟨_, ⟨hindex, rfl⟩, rfl⟩

/-- Tiles numbered from zero have one order only. -/
theorem level0_eq_of_index (hperm : cover.Perm (leafTiles tiles))
    (hindex : ∀ (j : ℕ) (t : Tile), cover[j]? = some t → t.coord.index = j) :
    level0 tiles = cover := by
  have hlt : cover.Pairwise (fun a b => a.coord.index ≤ b.coord.index) := by
    rw [List.pairwise_iff_getElem]
    intro i j hi hj hij
    rw [hindex i _ (List.getElem?_eq_getElem hi), hindex j _ (List.getElem?_eq_getElem hj)]
    exact hij.le
  apply List.Perm.eq_of_pairwise ?_ level0_sorted hlt (level0_perm.trans hperm.symm)
  intro a b ha hb hab hba
  obtain ⟨i, hi⟩ := List.mem_iff_getElem?.mp ((level0_perm.trans hperm.symm).mem_iff.mp ha)
  obtain ⟨j, hj⟩ := List.mem_iff_getElem?.mp hb
  have hij : i = j := by rw [← hindex i a hi, ← hindex j b hj, le_antisymm hab hba]
  subst hij
  exact Option.some.inj (hi.symm.trans hj)

theorem numbered_iff :
    Numbered tiles ↔ ∀ (j : ℕ) (t : Tile), (level0 tiles)[j]? = some t → t.coord.index = j := by
  have hmap : ((level0 tiles).map (fun t => t.coord.index)).Perm
      ((leafTiles tiles).map (fun t => t.coord.index)) := level0_perm.map _
  have hlen : (leafTiles tiles).length = (level0 tiles).length := level0_perm.length_eq.symm
  constructor
  · intro h j t ht
    have heq : (level0 tiles).map (fun t => t.coord.index) = List.range (leafTiles tiles).length :=
      List.Perm.eq_of_pairwise (fun _ _ _ _ => le_antisymm) (List.pairwise_map.mpr level0_sorted)
        List.pairwise_le_range (hmap.trans h)
    have hget := congrArg (·[j]?) heq
    obtain ⟨hj, -⟩ := List.getElem?_eq_some_iff.mp ht
    simp only [List.getElem?_map, ht, Option.map_some] at hget
    rw [List.getElem?_range (by omega)] at hget
    exact Option.some.inj hget
  · intro h
    have heq : (level0 tiles).map (fun t => t.coord.index) =
        List.range (leafTiles tiles).length := by
      apply List.ext_getElem (by rw [List.length_map, List.length_range, hlen])
      intro j hj hj'
      rw [List.getElem_map, List.getElem_range]
      rw [List.length_map] at hj
      exact h j _ (List.getElem?_eq_getElem hj)
    exact hmap.symm.trans (List.Perm.of_eq heq)

/-- The accepted tile sets are the covers, and the root is theirs, exactly when no numbered tile
set has a partial tile inside. -/
theorem reconstructRoot_covers_iff (H : Hasher) (tiles : List Tile) :
    (∀ root, reconstructRoot H tiles = some root ↔
      ∃ cover, LeafCover tiles cover ∧ root = mth H (cover.flatMap Tile.hashes)) ↔
    ¬ (Numbered tiles ∧ PartialInside tiles) := by
  have hlen : (leafTiles tiles).length = (level0 tiles).length := level0_perm.length_eq.symm
  constructor
  · rintro h ⟨hnumbered, t, ht, hinside, hpartial⟩
    have hindex := numbered_iff.mp hnumbered
    have ht' := level0_perm.mem_iff.mpr ht
    obtain ⟨cover, hcover, -⟩ := (h _).mp (reconstructRoot_eq_some_iff.mpr
      ⟨List.ne_nil_of_mem ht', hindex, rfl⟩)
    rw [← level0_eq_of_index hcover.perm hcover.index] at hcover
    obtain ⟨j, hj⟩ := List.mem_iff_getElem?.mp ht'
    refine hpartial (hcover.full j t hj ?_)
    rw [← hlen, ← hindex j t hj]
    exact hinside
  · intro h root
    rw [reconstructRoot_eq_some_iff]
    constructor
    · rintro ⟨hne, hindex, rfl⟩
      refine ⟨level0 tiles, ⟨level0_perm, hne, hindex, ?_⟩, rfl⟩
      intro j t ht hlast
      by_contra hpartial
      refine h ⟨numbered_iff.mpr hindex, t, ?_, ?_, hpartial⟩
      · exact level0_perm.mem_iff.mp (List.mem_of_getElem? ht)
      · rw [hindex j t ht, hlen]
        exact hlast
    · rintro ⟨cover, hcover, rfl⟩
      rw [level0_eq_of_index hcover.perm hcover.index]
      exact ⟨hcover.ne_nil, hcover.index, rfl⟩

/-- Two level-0 tiles of one hash each: leaf 0 and leaf 256, with nothing between them. -/
def holedTiles : List Tile :=
  [⟨⟨0, 0, ⟨1, by decide, by decide⟩⟩, [⟨List.Vector.replicate 32 1⟩], rfl⟩,
    ⟨⟨0, 1, ⟨1, by decide, by decide⟩⟩, [⟨List.Vector.replicate 32 2⟩], rfl⟩]

theorem reconstructRoot_accepts_hole :
    reconstructRoot residueHasher holedTiles =
        some (hashNode residueHasher ⟨List.Vector.replicate 32 1⟩ ⟨List.Vector.replicate 32 2⟩) ∧
      ¬ ∃ cover, LeafCover holedTiles cover := by
  have hlevel0 : level0 holedTiles = holedTiles := List.mergeSort_of_pairwise (by decide)
  constructor
  · rw [reconstructRoot_eq_some_iff, hlevel0]
    refine ⟨List.cons_ne_nil _ _, ?_, by decide +kernel⟩
    intro j t ht
    match j, ht with
    | 0, ht => cases ht; rfl
    | 1, ht => cases ht; rfl
  · rintro ⟨cover, hcover⟩
    rw [← level0_eq_of_index hcover.perm hcover.index, hlevel0] at hcover
    exact absurd (hcover.full 0 _ rfl (by decide)) (by decide)

end Mtc
