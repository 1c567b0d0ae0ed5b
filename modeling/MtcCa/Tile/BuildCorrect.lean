import MtcCa.Tile.Build

/-! The tile set of a tree: which tiles there are, what each one holds, and that the
level-0 tiles give the root back. -/
namespace Mtc

variable {H : Hasher} {leaves : List HashOutput} {n : TreeSize} {t : Tile}
  {level count tileN : ℕ}

theorem usizeOrMax_of_lt {x : ℕ} (h : x < 2 ^ 64) : usizeOrMax x = x := if_pos h

/-- A stored hash is the tree hash of the complete subtree it stands for. -/
theorem subtreeRoot_eq {i : ℕ} (hlen : leaves.length < 2 ^ 64)
    (hi : (i + 1) * 256 ^ level ≤ leaves.length) :
    subtreeRoot H leaves level i =
      mth H (leaves.extract (i * 256 ^ level) ((i + 1) * 256 ^ level)) := by
  have hle : i * 256 ^ level ≤ (i + 1) * 256 ^ level := Nat.mul_le_mul_right _ (by omega)
  have hspan : 1 <<< (tileHeight * level) = 256 ^ level := leafSpan_eq level
  simp only [subtreeRoot, hspan]
  rw [usizeOrMax_of_lt (by omega), usizeOrMax_of_lt (by omega), sliceOrEmpty, if_pos ⟨hle, hi⟩]
  rfl

/-- A tile can be built wherever the level still stores a hash. -/
theorem buildTile_isSome (h : tileN * 256 < count) :
    ∃ t, buildTile H leaves level count tileN = some t := by
  have hwidth : 1 ≤ min (count - tileN * fullTileHashes) fullTileHashes := by
    rw [fullTileHashes_eq]
    omega
  rw [buildTile, dif_pos ⟨hwidth, Nat.min_le_right _ _⟩]
  exact ⟨_, rfl⟩

/-- Everything a built tile holds. -/
theorem buildTile_spec (h : buildTile H leaves level count tileN = some t) :
    t.coord.level = level ∧ t.coord.index = tileN ∧
      t.coord.width.get = min (count - tileN * 256) 256 ∧
      ∀ j < t.coord.width.get, t.hashes[j]? =
        some (subtreeRoot H leaves level (tileN * 256 + j)) := by
  simp only [buildTile] at h
  split at h
  · cases h
    refine ⟨rfl, rfl, rfl, ?_⟩
    intro j hj
    rw [List.getElem?_map, List.getElem?_range hj]
    rfl
  · cases h

theorem mem_buildLevel :
    t ∈ buildLevel H leaves level count ↔
      ∃ N, N * 256 < count ∧ buildTile H leaves level count N = some t := by
  simp only [buildLevel, List.mem_filterMap, List.mem_range, fullTileHashes_eq]
  constructor
  · rintro ⟨N, hN, ht⟩
    exact ⟨N, by omega, ht⟩
  · rintro ⟨N, hN, ht⟩
    exact ⟨N, by omega, ht⟩

/-- The loop over levels visits every level that stores a hash. -/
theorem mem_buildTilesFrom :
    t ∈ buildTilesFrom H leaves n level ↔
      ∃ L N, level ≤ L ∧ N * 256 < hashesAtLevel n L ∧
        buildTile H leaves L (hashesAtLevel n L) N = some t := by
  induction hc : hashesAtLevel n level using Nat.strong_induction_on generalizing level with
  | _ c ih =>
    subst hc
    have hnext := hashesAtLevel_succ n level
    rw [buildTilesFrom]
    by_cases hzero : hashesAtLevel n level = 0
    · simp only [if_pos hzero, List.not_mem_nil, false_iff, not_exists, not_and]
      intro L N hL hN
      have := hashesAtLevel_antitone (n := n) hL
      omega
    · have hrec : t ∈ (if hashesAtLevel n level = 1 then []
          else buildTilesFrom H leaves n (level + 1)) ↔
          ∃ L N, level + 1 ≤ L ∧ N * 256 < hashesAtLevel n L ∧
            buildTile H leaves L (hashesAtLevel n L) N = some t := by
        by_cases hone : hashesAtLevel n level = 1
        · simp only [if_pos hone, List.not_mem_nil, false_iff, not_exists, not_and]
          intro L N hL hN
          have := hashesAtLevel_antitone (n := n) hL
          omega
        · rw [if_neg hone]
          exact ih _ (by omega) rfl
      simp only [if_neg hzero, List.mem_append, mem_buildLevel, hrec]
      constructor
      · rintro (⟨N, hN, ht⟩ | ⟨L, N, hL, hN, ht⟩)
        · exact ⟨level, N, le_refl _, hN, ht⟩
        · exact ⟨L, N, by omega, hN, ht⟩
      · rintro ⟨L, N, hL, hN, ht⟩
        rcases Nat.eq_or_lt_of_le hL with rfl | hlt
        · exact Or.inl ⟨N, hN, ht⟩
        · exact Or.inr ⟨L, N, hlt, hN, ht⟩

/-- Where a tile sits, whatever its width. -/
def Tile.position (t : Tile) : ℕ × ℕ := (t.coord.level, t.coord.index)

theorem position_of_buildTile (h : buildTile H leaves level count tileN = some t) :
    t.position = (level, tileN) := by
  obtain ⟨hl, hi, -⟩ := buildTile_spec h
  rw [Tile.position, hl, hi]

theorem positions_buildLevel :
    (buildLevel H leaves level count).map Tile.position =
      (List.range ((count + 255) / 256)).map (fun N => (level, N)) := by
  rw [buildLevel, List.map_filterMap, ← List.filterMap_eq_map']
  apply List.filterMap_congr
  intro N hN
  rw [List.mem_range, fullTileHashes_eq] at hN
  obtain ⟨t, ht⟩ : ∃ t, buildTile H leaves level count N = some t :=
    buildTile_isSome (by omega)
  rw [ht, Option.map_some, position_of_buildTile ht]

/-- No position is built twice. -/
theorem nodup_positions_buildTilesFrom :
    ((buildTilesFrom H leaves n level).map Tile.position).Nodup := by
  induction hc : hashesAtLevel n level using Nat.strong_induction_on generalizing level with
  | _ c ih =>
    subst hc
    have hnext := hashesAtLevel_succ n level
    rw [buildTilesFrom]
    by_cases hzero : hashesAtLevel n level = 0
    · simp [hzero]
    · have hlevel :
          ((buildLevel H leaves level (hashesAtLevel n level)).map Tile.position).Nodup := by
        rw [positions_buildLevel]
        exact List.nodup_range.map (fun a b h => (Prod.mk.inj h).2)
      simp only [if_neg hzero]
      by_cases hone : hashesAtLevel n level = 1
      · simpa [hone] using hlevel
      · rw [if_neg hone, List.map_append, List.nodup_append]
        refine ⟨hlevel, ih _ (by omega) rfl, ?_⟩
        intro p hp q hq hpq
        obtain ⟨s, hs, rfl⟩ := List.mem_map.mp hp
        obtain ⟨u, hu, rfl⟩ := List.mem_map.mp hq
        obtain ⟨N, -, hsN⟩ := mem_buildLevel.mp hs
        obtain ⟨L, M, hL, -, huM⟩ := mem_buildTilesFrom.mp hu
        rw [position_of_buildTile hsN, position_of_buildTile huM] at hpq
        have := (Prod.mk.inj hpq).1
        omega

/-- A level-0 tile holds a run of leaf hashes. -/
theorem hashes_of_level_zero (hlen : leaves.length < 2 ^ 64)
    (h : buildTile H leaves 0 leaves.length tileN = some t) :
    t.hashes = (leaves.drop (tileN * 256)).take 256 := by
  obtain ⟨-, -, hwidth, hget⟩ := buildTile_spec h
  apply List.ext_getElem?
  intro j
  by_cases hj : j < t.coord.width.get
  · have hin : tileN * 256 + j < leaves.length := by omega
    rw [hget j hj, subtreeRoot_eq hlen (by omega), List.getElem?_take_of_lt (by omega),
      List.getElem?_drop, pow_zero, Nat.mul_one, Nat.mul_one, mth_extract_succ H hin]
  · rw [List.getElem?_eq_none (by rw [t.length_hashes]; omega), List.getElem?_eq_none]
    rw [List.length_take, List.length_drop]
    omega

/-- The cover loop over consecutive level-0 tiles collects the leaves they hold. -/
theorem coverFrom_level_zero {m : ℕ} (hlen : leaves.length < 2 ^ 64) {N : ℕ}
    (hm : ∀ k < m, (N + k) * 256 < leaves.length) :
    coverFrom N (leaves.take (N * 256))
        ((List.range' N m).filterMap (buildTile H leaves 0 leaves.length)) =
      some (leaves.take ((N + m) * 256)) := by
  induction m generalizing N with
  | zero => rfl
  | succ m ih =>
    obtain ⟨t, ht⟩ : ∃ t, buildTile H leaves 0 leaves.length N = some t :=
      buildTile_isSome (by simpa using hm 0 (by omega))
    have hnext : leaves.take (N * 256) ++ t.hashes = leaves.take ((N + 1) * 256) := by
      rw [hashes_of_level_zero hlen ht, ← List.take_add, Nat.succ_mul]
    rw [List.range'_succ, List.filterMap_cons_some ht, coverFrom,
      if_neg (by simp [(buildTile_spec ht).2.1]), hnext, ih]
    · rw [Nat.add_right_comm, Nat.add_assoc]
    · intro k hk
      have := hm (k + 1) (by omega)
      rwa [show N + 1 + k = N + (k + 1) by omega]

/-- The level-0 tiles of a tile set are its first level, in index order. -/
theorem filter_level_zero (hpos : 0 < hashesAtLevel n 0) :
    (buildTilesFrom H leaves n 0).filter (fun t => t.coord.level = 0) =
      buildLevel H leaves 0 (hashesAtLevel n 0) := by
  rw [buildTilesFrom, if_neg (by omega), List.filter_append]
  have hfirst : ∀ t ∈ buildLevel H leaves 0 (hashesAtLevel n 0), t.coord.level = 0 := by
    intro t ht
    obtain ⟨N, -, hN⟩ := mem_buildLevel.mp ht
    exact (buildTile_spec hN).1
  have hrest : ∀ t ∈ buildTilesFrom H leaves n (0 + 1), t.coord.level ≠ 0 := by
    intro t ht
    obtain ⟨L, N, hL, -, hN⟩ := mem_buildTilesFrom.mp ht
    rw [(buildTile_spec hN).1]
    omega
  rw [List.filter_eq_self.mpr (by simpa using hfirst)]
  split
  · simp
  · rw [List.filter_eq_nil_iff.mpr (by simpa using hrest), List.append_nil]

theorem pairwise_index_buildLevel :
    (buildLevel H leaves level count).Pairwise (fun a b => a.coord.index ≤ b.coord.index) := by
  have hpos : ((buildLevel H leaves level count).map Tile.position).Pairwise
      (fun p q => p.2 ≤ q.2) := by
    rw [positions_buildLevel, List.pairwise_map]
    exact List.pairwise_le_range
  rw [List.pairwise_map] at hpos
  exact hpos

theorem reconstructRoot_buildTiles (hlen : leaves.length < 2 ^ 64) (hne : leaves ≠ []) :
    reconstructRoot H (buildTiles H leaves) = some (mth H leaves) := by
  have hsize : (UInt64.ofNat leaves.length).toNat = leaves.length :=
    UInt64.toNat_ofNat_of_lt' hlen
  have hcount : hashesAtLevel (UInt64.ofNat leaves.length) 0 = leaves.length := by
    rw [hashesAtLevel_zero, hsize]
  have hpos : 0 < leaves.length := List.length_pos_iff.mpr hne
  have hcover : coverFrom 0 [] (buildLevel H leaves 0 leaves.length) = some leaves := by
    have h := coverFrom_level_zero (H := H) (N := 0) (m := (leaves.length + 255) / 256) hlen
      (by omega)
    rw [Nat.zero_mul, List.take_zero, List.take_of_length_le (by omega)] at h
    rw [buildLevel, List.range_eq_range']
    exact h
  have hsome : buildLevel H leaves 0 leaves.length ≠ [] := by
    intro hnil
    rw [hnil, coverFrom] at hcover
    exact hne (Option.some.inj hcover).symm
  have hlevel0 : level0 (buildTiles H leaves) = buildLevel H leaves 0 leaves.length := by
    rw [level0, buildTiles, filter_level_zero (by omega), hcount]
    exact List.mergeSort_of_pairwise (by simpa using pairwise_index_buildLevel)
  rw [reconstructRoot, hlevel0, if_neg (by simpa using hsome), hcover]
  rfl

/-- The tile set of a tree: one tile at each position that stores a hash and no other, of
the width the geometry names, holding the tree's own subtree hashes; and the root. -/
theorem buildTiles_agrees (leaves : List HashOutput) (hlen : leaves.length < 2 ^ 64) :
    ((buildTiles H leaves).map Tile.position).Nodup ∧
    (∀ L N, (L, N) ∈ (buildTiles H leaves).map Tile.position ↔
      256 ^ L ≤ leaves.length ∧
      N < (hashesAtLevel (UInt64.ofNat leaves.length) L + 255) / 256) ∧
    (∀ t ∈ buildTiles H leaves,
      tileWidth t.coord.level t.coord.index (UInt64.ofNat leaves.length) = some t.coord.width ∧
      ∀ j < t.coord.width.get, ∃ h, t.hashes[j]? = some h ∧
        (⟨leaves⟩ : MerkleTree H).subtreeHash
          ((256 * t.coord.index + j) * 256 ^ t.coord.level)
          ((256 * t.coord.index + j + 1) * 256 ^ t.coord.level) = some h) ∧
    (leaves ≠ [] → reconstructRoot H (buildTiles H leaves) =
      some (⟨leaves⟩ : MerkleTree H).root) := by
  have hsize : (UInt64.ofNat leaves.length).toNat = leaves.length :=
    UInt64.toNat_ofNat_of_lt' hlen
  refine ⟨nodup_positions_buildTilesFrom, ?_, ?_, reconstructRoot_buildTiles hlen⟩
  · intro L N
    have hlevel : 0 < hashesAtLevel (UInt64.ofNat leaves.length) L ↔ 256 ^ L ≤ leaves.length := by
      rw [hashesAtLevel_pos_iff, hsize]
    rw [← hlevel, List.mem_map]
    constructor
    · rintro ⟨t, ht, hpos⟩
      obtain ⟨L', N', -, hN, hbuild⟩ := mem_buildTilesFrom.mp ht
      rw [position_of_buildTile hbuild, Prod.mk.injEq] at hpos
      obtain ⟨rfl, rfl⟩ := hpos
      omega
    · rintro ⟨-, hN⟩
      obtain ⟨t, ht⟩ : ∃ t, buildTile H leaves L
          (hashesAtLevel (UInt64.ofNat leaves.length) L) N = some t :=
        buildTile_isSome (by omega)
      exact ⟨t, mem_buildTilesFrom.mpr ⟨L, N, by omega, by omega, ht⟩, position_of_buildTile ht⟩
  · intro t ht
    obtain ⟨L, N, -, hN, hbuild⟩ := mem_buildTilesFrom.mp ht
    obtain ⟨rfl, rfl, hwidth, hget⟩ := buildTile_spec hbuild
    refine ⟨?_, ?_⟩
    · rw [tileWidth_eq_some hN]
      congr 1
      exact TileWidth.ext hwidth.symm
    · intro j hj
      have hmul := hashesAtLevel_mul_le (UInt64.ofNat leaves.length) t.coord.level
      have hin : (256 * t.coord.index + j + 1) * 256 ^ t.coord.level ≤ leaves.length := by
        rw [hsize] at hmul
        exact le_trans (Nat.mul_le_mul_right _ (by omega)) hmul
      refine ⟨_, hget j hj, ?_⟩
      rw [MerkleTree.subtreeHash_of_le _ _ hin, Nat.mul_comm t.coord.index 256,
        subtreeRoot_eq hlen hin]
      exact Nat.mul_lt_mul_of_pos_right (by omega) (Nat.pow_pos (by omega))

theorem buildTiles_agrees_two :
    ((buildTiles residueHasher [⟨List.Vector.replicate 32 1⟩,
      ⟨List.Vector.replicate 32 2⟩]).map Tile.position).Nodup ∧
    reconstructRoot residueHasher (buildTiles residueHasher [⟨List.Vector.replicate 32 1⟩,
        ⟨List.Vector.replicate 32 2⟩]) =
      some (hashNode residueHasher ⟨List.Vector.replicate 32 1⟩ ⟨List.Vector.replicate 32 2⟩) :=
  let ⟨hnodup, _, _, hroot⟩ := buildTiles_agrees (H := residueHasher)
    [⟨List.Vector.replicate 32 1⟩, ⟨List.Vector.replicate 32 2⟩] (by decide)
  ⟨hnodup, (hroot (by simp)).trans (by decide +kernel)⟩

end Mtc
