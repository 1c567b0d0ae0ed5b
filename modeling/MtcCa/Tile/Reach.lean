import MtcCa.Read.PlanTiles
import MtcCa.Tree.Partition

/-! How many tiles an inclusion proof reads (`crates/mtc/src/tile/coord.rs`): at each level at most
the tile above the leaf and the tile above the end of the tree. -/
namespace Mtc

variable {a b k : ℕ} {n : TreeSize} {i : Index} {block : Subtree} {c c' : TileCoord}
  {coords : List TileCoord}

/-- Two positions that share a subtree share every larger one. -/
theorem div_two_pow_mono {x y j m : ℕ} (h : x / 2 ^ j = y / 2 ^ j) (hjm : j ≤ m) :
    x / 2 ^ m = y / 2 ^ m := by
  rw [← Nat.add_sub_cancel' hjm, pow_add, ← Nat.div_div_eq_div_mul, h, Nat.div_div_eq_div_mul]

/-- Of two blocks of a list in order, one ends before the other starts. -/
theorem eq_or_apart {blocks : List Subtree} {x y : Subtree}
    (h : blocks.Pairwise (fun x y => x.stop ≤ y.start)) (hx : x ∈ blocks) (hy : y ∈ blocks) :
    x = y ∨ x.stop ≤ y.start ∨ y.stop ≤ x.start := by
  obtain ⟨j, hj, rfl⟩ := List.mem_iff_getElem.mp hx
  obtain ⟨l, hl, rfl⟩ := List.mem_iff_getElem.mp hy
  rw [List.pairwise_iff_getElem] at h
  obtain hlt | rfl | hgt := Nat.lt_trichotomy j l
  · exact Or.inr (Or.inl (h j l hj hl hlt))
  · exact Or.inl rfl
  · exact Or.inr (Or.inr (h l j hl hj hgt))

/-- A block of a decomposition shares its parent with the position before the range or with the
end of the range: otherwise the parent would have been taken. -/
theorem parent_of_block (hab : a ≤ b) (hb : b < 2 ^ 64) (h : block ∈ decomposeRange a b) :
    ∃ k, block = ⟨block.start, block.start + 2 ^ k⟩ ∧ 2 ^ k ∣ block.start ∧
      block.start + 2 ^ k ≤ b ∧
      (0 < a ∧ block.start / 2 ^ (k + 1) = (a - 1) / 2 ^ (k + 1) ∨
        block.start / 2 ^ (k + 1) = b / 2 ^ (k + 1)) := by
  obtain ⟨k, hblock, hdvd, hle⟩ := decomposeRange_blocks hb h
  refine ⟨k, hblock, hdvd, hle, ?_⟩
  have hcons := decomposeRange_consecutive hab hb
  have hlo := hcons.le_start h
  have hpos := Nat.two_pow_pos k
  obtain ⟨p, hp⟩ : ∃ p, p = block.start / 2 ^ (k + 1) * 2 ^ (k + 1) := ⟨_, rfl⟩
  have hstart : p ≤ block.start := hp ▸ Nat.div_mul_le_self _ _
  have hinside : block.start < p + 2 ^ (k + 1) := by
    rw [hp, ← Nat.succ_mul]
    exact Nat.lt_mul_div_succ _ (Nat.two_pow_pos _) |>.trans_eq (Nat.mul_comm _ _)
  have hstop : block.start + 2 ^ k ≤ p + 2 ^ (k + 1) := by
    refine add_le_of_dvd_of_lt hdvd ?_ hinside
    exact Nat.dvd_add (hp ▸ (pow_dvd_pow 2 (Nat.le_succ k)).mul_left _)
      (pow_dvd_pow 2 (Nat.le_succ k))
  have hshare : ∀ x, p ≤ x → x < p + 2 ^ (k + 1) →
      block.start / 2 ^ (k + 1) = x / 2 ^ (k + 1) := by
    intro x hlow hhigh
    refine (Nat.div_eq_of_lt_le ?_ ?_).symm
    · rwa [← hp]
    · rwa [Nat.succ_mul, ← hp]
  by_cases hfits : a ≤ p ∧ p + 2 ^ (k + 1) ≤ b
  · -- the parent would lie inside one of the blocks, which then is the block itself
    obtain ⟨outer, houter, hlow, hhigh⟩ := decomposeRange_maximal (a := a) hb
      (hp ▸ Nat.dvd_mul_left (2 ^ (k + 1)) _) hfits.1 hfits.2
    have hsize : block.stop = block.start + 2 ^ k := congrArg Subtree.stop hblock
    rw [pow_succ] at hhigh hstop
    obtain rfl | hbefore | hafter := eq_or_apart hcons.pairwise h houter <;> omega
  · by_cases hbefore : a ≤ p
    · exact Or.inr (hshare b (by omega) (by omega))
    · exact Or.inl ⟨by omega, hshare (a - 1) (by omega) (by omega)⟩

/-- The tile of a block, at the index that the block's parent names. -/
theorem tile_of_block (hab : a ≤ b) (hb : b ≤ n.toNat) (h : block ∈ decomposeRange a b) :
    ∃ c, tileForSubtree block n = .ok c ∧
      c.index * 256 < hashesAtLevel n c.level ∧ tileWidth c.level c.index n = some c.width ∧
      (0 < a ∧ c.index = (a - 1) / 256 ^ (c.level + 1) ∨ c.index = b / 256 ^ (c.level + 1)) := by
  have hn := n.toNat_lt
  obtain ⟨k, hblock, hdvd, hle, hparent⟩ := parent_of_block hab (by omega) h
  obtain ⟨run, hrun, htile⟩ := tileForSubtree_blockToSlotRun hdvd (hle.trans hb)
  obtain ⟨w, slot, hspec, hbase, hw, -⟩ := blockToSlotRun_spec hdvd (hle.trans hb)
  rw [hspec, Except.ok.injEq] at hrun
  rw [← hblock, ← hrun] at htile
  refine ⟨_, htile, hbase, hw, ?_⟩
  have hspan : 256 ^ (k / 8 + 1) = 2 ^ (8 * (k / 8 + 1)) := by
    rw [pow_mul]
    norm_num
  simp only [hspan]
  obtain ⟨hpos, hshare⟩ | hshare := hparent
  · exact Or.inl ⟨hpos, div_two_pow_mono hshare (by omega)⟩
  · exact Or.inr (div_two_pow_mono hshare (by omega))

theorem TileCoord.Le.antisymm (h : c.Le c') (h' : c'.Le c) : c = c' := by
  obtain ⟨level, index, width⟩ := c
  obtain ⟨level', index', width'⟩ := c'
  simp only [TileCoord.Le] at h h'
  have hwidth : width.get = width'.get := by omega
  rw [TileCoord.mk.injEq]
  exact ⟨by omega, by omega, TileWidth.ext hwidth⟩

instance : Std.Total TileCoord.Le where
  total c c' := by
    simp only [TileCoord.Le]
    omega

instance : IsTrans TileCoord TileCoord.Le where
  trans c c' c'' h h' := by
    simp only [TileCoord.Le] at h h' ⊢
    omega

/-- What is in order and nowhere repeats itself at once never repeats itself. -/
theorem pairwise_lt_of_sorted (hs : coords.Pairwise TileCoord.Le) (hc : coords.IsChain (· ≠ ·)) :
    coords.Pairwise (fun c c' => c.Le c' ∧ c ≠ c') := by
  induction coords with
  | nil => exact .nil
  | cons first rest ih =>
    obtain ⟨hfirst, hrest⟩ := List.pairwise_cons.mp hs
    refine List.pairwise_cons.mpr ⟨fun c hc' => ⟨hfirst c hc', ?_⟩, ih hrest hc.tail⟩
    rintro rfl
    cases rest with
    | nil => cases hc'
    | cons second others =>
      have hne : first ≠ second := (List.isChain_cons_cons.mp hc).1
      obtain rfl | hlater := List.mem_cons.mp hc'
      · exact hne rfl
      · have hle := (List.pairwise_cons.mp hrest).1 _ hlater
        exact hne ((hfirst second (List.mem_cons_self ..)).antisymm hle)

theorem pairwise_sortDedup (coords : List TileCoord) :
    (sortDedup coords).Pairwise (fun c c' => c.Le c' ∧ c ≠ c') :=
  pairwise_lt_of_sorted ((List.pairwise_insertionSort _ _).sublist (List.destutter_sublist _ _))
    (List.isChain_destutter _ _)

/-- A list of tiles at no more than two indices on each of `m` levels has at most `2 * m`. -/
theorem length_le_of_indices {m : ℕ} {x y : ℕ → ℕ} (hnodup : coords.Nodup)
    (hlevel : ∀ c ∈ coords, c.level < m)
    (hwidth : ∀ c ∈ coords, tileWidth c.level c.index n = some c.width)
    (hindex : ∀ c ∈ coords, c.index = x c.level ∨ c.index = y c.level) :
    coords.length ≤ 2 * m := by
  have hinj : Set.InjOn (fun c : TileCoord => (c.level, c.index)) {c | c ∈ coords} := by
    intro c hc c' hc' heq
    obtain ⟨level, index, width⟩ := c
    obtain ⟨level', index', width'⟩ := c'
    obtain ⟨rfl, rfl⟩ := Prod.mk.inj heq
    have hw : some width = some width' :=
      (hwidth ⟨level, index, width⟩ hc).symm.trans (hwidth ⟨level, index, width'⟩ hc')
    rw [TileCoord.mk.injEq]
    exact ⟨rfl, rfl, Option.some.inj hw⟩
  have hcard : coords.length = (coords.map (fun c => (c.level, c.index))).toFinset.card := by
    rw [List.toFinset_card_of_nodup (hnodup.map_on hinj), List.length_map]
  rw [hcard]
  refine (Finset.card_le_card (t := (Finset.range m).biUnion
    (fun level => {(level, x level), (level, y level)})) ?_).trans ?_
  · intro p hp
    obtain ⟨c, hc, rfl⟩ := List.mem_map.mp (List.mem_toFinset.mp hp)
    rw [Finset.mem_biUnion]
    refine ⟨c.level, Finset.mem_range.mpr (hlevel c hc), ?_⟩
    obtain h | h := hindex c hc <;> simp [h]
  · refine (Finset.card_biUnion_le_card_mul _ _ 2 (fun level _ => Finset.card_le_two)).trans ?_
    rw [Finset.card_range, Nat.mul_comm]

/-- The tiles of an inclusion proof: they come in order and none twice, each is a tile of the
tree, at each level they sit above the leaf or above the end of the tree and nowhere else, and so
they are at most two for each level of the tree and sixteen in all. -/
theorem tilesForInclusion_few (n : TreeSize) (i : Index) (hi : i.toNat < n.toNat) :
    ∃ tiles, tilesForInclusion i n = .ok tiles ∧
      tiles.Pairwise (fun c c' => c.Le c' ∧ c ≠ c') ∧
      (∃ c ∈ tiles, c.level = 0 ∧ c.index = i.toNat / 256) ∧
      (∀ c ∈ tiles, tileWidth c.level c.index n = some c.width ∧
        (c.index = i.toNat / 256 ^ (c.level + 1) ∨ c.index = n.toNat / 256 ^ (c.level + 1))) ∧
      tiles.length ≤ 2 * (Nat.log 256 n.toNat + 1) ∧ tiles.length ≤ 16 := by
  have hn := n.toNat_lt
  obtain ⟨w, slot, hspec, hbase, hw, -⟩ :=
    blockToSlotRun_spec (n := n) (a := i.toNat) (k := 0) (one_dvd _) (by omega)
  obtain ⟨run, hrun, hleaf⟩ :=
    tileForSubtree_blockToSlotRun (n := n) (a := i.toNat) (k := 0) (one_dvd _) (by omega)
  rw [hspec, Except.ok.injEq] at hrun
  rw [← hrun] at hleaf
  have hblocks : ∀ block ∈ [⟨i.toNat, i.toNat + 1⟩] ++ decomposeRange 0 i.toNat ++
      decomposeRange (i.toNat + 1) n.toNat, ∃ c, tileForSubtree block n = .ok c ∧
        c.index * 256 < hashesAtLevel n c.level ∧ tileWidth c.level c.index n = some c.width ∧
        (c.index = i.toNat / 256 ^ (c.level + 1) ∨ c.index = n.toNat / 256 ^ (c.level + 1)) := by
    intro block hblock
    rw [List.mem_append, List.mem_append, List.mem_singleton] at hblock
    obtain (rfl | hbefore) | hafter := hblock
    · exact ⟨_, hleaf, hbase, hw, Or.inl rfl⟩
    · obtain ⟨c, hc, hstored, hwidth, hindex⟩ := tile_of_block (Nat.zero_le _) hi.le hbefore
      exact ⟨c, hc, hstored, hwidth, Or.inl (hindex.resolve_left (fun h => h.1.false))⟩
    · obtain ⟨c, hc, hstored, hwidth, hindex⟩ := tile_of_block hi (le_refl _) hafter
      exact ⟨c, hc, hstored, hwidth, hindex.imp_left And.right⟩
  obtain ⟨coords, hcoords, hmem⟩ :=
    mapM_tileForSubtree (fun block hblock => (hblocks block hblock).imp (fun _ h => h.1))
  have hspecs : ∀ c ∈ sortDedup coords, c.index * 256 < hashesAtLevel n c.level ∧
      tileWidth c.level c.index n = some c.width ∧
      (c.index = i.toNat / 256 ^ (c.level + 1) ∨ c.index = n.toNat / 256 ^ (c.level + 1)) := by
    intro c hc
    obtain ⟨block, hblock, htile⟩ := (hmem c).mp (mem_sortDedup.mp hc)
    obtain ⟨c', hc', hspec'⟩ := hblocks block hblock
    rw [htile, Except.ok.injEq] at hc'
    exact hc' ▸ hspec'
  have hlevel : ∀ c ∈ sortDedup coords, c.level < Nat.log 256 n.toNat + 1 := by
    intro c hc
    have hpow : 256 ^ c.level ≤ n.toNat :=
      hashesAtLevel_pos_iff.mp (Nat.zero_lt_of_lt (hspecs c hc).1)
    exact Nat.lt_succ_of_le (Nat.le_log_of_pow_le (by omega) hpow)
  have hlog : Nat.log 256 n.toNat < 8 := Nat.log_lt_of_lt_pow (by omega) (by omega)
  have hsorted := pairwise_sortDedup coords
  have hlength := length_le_of_indices (x := fun level => i.toNat / 256 ^ (level + 1))
    (y := fun level => n.toNat / 256 ^ (level + 1)) (hsorted.imp And.right) hlevel
    (fun c hc => (hspecs c hc).2.1) (fun c hc => (hspecs c hc).2.2)
  refine ⟨sortDedup coords, ?_, hsorted, ?_, fun c hc => (hspecs c hc).2, hlength, by omega⟩
  · simp only [tilesForInclusion, if_neg (show ¬ i.toNat ≥ n.toNat by omega)]
    rw [hcoords]
    rfl
  · refine ⟨_, mem_sortDedup.mpr ((hmem _).mpr ⟨_, ?_, hleaf⟩), rfl, rfl⟩
    exact List.mem_append_left _ (List.mem_append_left _ (List.mem_singleton_self _))

/-- The last leaf of the largest tree. -/
theorem tilesForInclusion_few_last : ∃ tiles,
    tilesForInclusion 18446744073709551614 18446744073709551615 = .ok tiles ∧
      tiles.length ≤ 16 :=
  let ⟨tiles, htiles, _, _, _, _, hlength⟩ :=
    tilesForInclusion_few 18446744073709551615 18446744073709551614 (by decide)
  ⟨tiles, htiles, hlength⟩

end Mtc
