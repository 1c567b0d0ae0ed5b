import MtcCa.Lib.MerkleBlocks
import MtcCa.Read.Plan
import MtcCa.Tile.BuildCorrect

/-! A plan reads real tile slots and assembles the audit path. Every sibling range starts at
a multiple of a power of two that covers it, so the greedy decomposition follows the split
recursion of the tree hash from the left. -/
namespace Mtc

variable {H : Hasher} {leaves : List HashOutput} {n : TreeSize} {a b i k : ℕ}

/-- A range that starts at a multiple of a power of two covering it. -/
structure AlignedRange (a b : ℕ) : Prop where
  lt : a < b
  aligned : ∃ e, 2 ^ e ∣ a ∧ b - a ≤ 2 ^ e

theorem alignedRange_of_dvd (hlt : a < b) (hdvd : 2 ^ k ∣ a) (hle : b - a ≤ 2 ^ k) :
    AlignedRange a b :=
  ⟨hlt, k, hdvd, hle⟩

/-- A power of two below the length of an aligned range divides its start. -/
theorem AlignedRange.dvd_of_lt (h : AlignedRange a b) (hk : 2 ^ k < b - a) : 2 ^ k ∣ a := by
  obtain ⟨e, hdvd, hle⟩ := h.aligned
  have hke : k ≤ e := by
    by_contra hlt
    have := Nat.pow_le_pow_right (n := 2) (by omega) (show e ≤ k by omega)
    omega
  exact dvd_trans (pow_dvd_pow 2 hke) hdvd

/-- Splitting at the largest power of two below the length leaves two aligned ranges. -/
theorem AlignedRange.split (h : AlignedRange a b) (h2 : 2 ≤ b - a) :
    AlignedRange a (a + Merkle.split (b - a)) ∧ AlignedRange (a + Merkle.split (b - a)) b := by
  have hlt := Merkle.split_lt h2
  have hle := Merkle.le_two_mul_split h2
  have hpos := Merkle.split_pos (b - a)
  have hdvd : Merkle.split (b - a) ∣ a := h.dvd_of_lt hlt
  constructor
  · exact alignedRange_of_dvd (by omega) hdvd (by rw [← Merkle.split]; omega)
  · exact alignedRange_of_dvd (by omega) (Nat.dvd_add hdvd (Nat.dvd_refl _))
      (by rw [← Merkle.split]; omega)

/-- The siblings of a leaf of an aligned range lie in it and are aligned. -/
theorem siblingRanges_aligned {start stop : ℕ} {out : List (ℕ × ℕ)}
    (h : AlignedRange start stop) (hlo : start ≤ i) (hhi : i < stop) :
    ∀ r ∈ siblingRanges start stop i out, r ∈ out ∨ AlignedRange r.1 r.2 ∧ r.2 ≤ stop := by
  induction hn : stop - start using Nat.strong_induction_on generalizing start stop out with
  | _ m ih =>
    rw [siblingRanges]
    by_cases hshort : stop - start ≤ 1
    · rw [if_pos hshort]
      exact fun r hr => Or.inl hr
    · have hlt := Merkle.split_lt (n := stop - start) (by omega)
      have hpos := Merkle.split_pos (stop - start)
      obtain ⟨hleft, hright⟩ := h.split (by omega)
      simp only [if_neg hshort, largestPowerOfTwoBelow_eq_split]
      split
      · intro r hr
        rcases List.mem_append.mp hr with hr | hr
        · rcases ih _ (by omega) hleft hlo (by omega) rfl r hr with hr | ⟨hr, hle⟩
          · exact Or.inl hr
          · exact Or.inr ⟨hr, by omega⟩
        · rw [List.mem_singleton] at hr
          subst hr
          exact Or.inr ⟨hright, le_refl _⟩
      · intro r hr
        rcases List.mem_append.mp hr with hr | hr
        · exact ih _ (by omega) hright (by omega) hhi rfl r hr
        · rw [List.mem_singleton] at hr
          subst hr
          exact Or.inr ⟨hleft, by simp only; omega⟩

/-- The collected siblings are the tree hashes of the sibling ranges. -/
theorem collectSiblings_eq_ranges {start stop : ℕ} (ranges : List (ℕ × ℕ))
    (hstop : stop ≤ leaves.length) (hlo : start ≤ i) (hhi : i < stop) :
    collectSiblings (⟨leaves⟩ : MerkleTree H) start stop i
        (ranges.map (fun r => mth H (leaves.extract r.1 r.2))) =
      .ok ((siblingRanges start stop i ranges).map (fun r => mth H (leaves.extract r.1 r.2))) := by
  induction hn : stop - start using Nat.strong_induction_on generalizing start stop ranges with
  | _ m ih =>
    rw [collectSiblings, siblingRanges]
    by_cases hshort : stop - start ≤ 1
    · rw [if_pos hshort, if_pos hshort]
    · have hlt := Merkle.split_lt (n := stop - start) (by omega)
      have hpos := Merkle.split_pos (stop - start)
      simp only [if_neg hshort, largestPowerOfTwoBelow_eq_split]
      split
      · rw [ih _ (by omega) _ (by omega) hlo (by omega) rfl, Outcome.ok_bind,
          MerkleTree.subtreeHash_of_le _ (by omega) hstop, List.map_append]
        rfl
      · rw [ih _ (by omega) _ hstop (by omega) hhi rfl, Outcome.ok_bind,
          MerkleTree.subtreeHash_of_le _ (by omega) (by simp only; omega), List.map_append]
        rfl

/-- The first block of an aligned range is its largest power of two, and what is left is
aligned again. -/
theorem decomposeRange_aligned (h : AlignedRange a b) (hb : b < 2 ^ 64) :
    decomposeRange a b = ⟨a, a + 2 ^ (b - a).log2⟩ :: decomposeRange (a + 2 ^ (b - a).log2) b := by
  obtain ⟨e, hdvd, hle⟩ := h.aligned
  rw [decomposeRange, if_pos h.lt, blockStep_of_aligned h.lt hdvd hle hb]

theorem AlignedRange.tail (h : AlignedRange a b) (hlt : a + 2 ^ (b - a).log2 < b) :
    AlignedRange (a + 2 ^ (b - a).log2) b := by
  have hab := h.lt
  have hlog : b - a < 2 ^ ((b - a).log2 + 1) :=
    (Nat.log2_lt (by omega)).mp (Nat.lt_succ_self _)
  rw [pow_succ] at hlog
  exact alignedRange_of_dvd hlt
    (Nat.dvd_add (h.dvd_of_lt (by omega)) (Nat.dvd_refl _)) (by omega)

theorem AlignedRange.head_dvd (h : AlignedRange a b) : 2 ^ (b - a).log2 ∣ a := by
  obtain ⟨e, hdvd, hle⟩ := h.aligned
  have hlt := h.lt
  have hlog := Nat.log2_self_le (n := b - a) (by omega)
  have hke : (b - a).log2 ≤ e := by
    by_contra hgt
    have := Nat.pow_lt_pow_right (a := 2) (by omega) (show e < (b - a).log2 by omega)
    omega
  exact dvd_trans (pow_dvd_pow 2 hke) hdvd

/-- A multiple below another multiple leaves room for one more. -/
theorem add_le_of_dvd_of_lt {x y d : ℕ} (hx : d ∣ x) (hy : d ∣ y) (hlt : x < y) : x + d ≤ y := by
  obtain ⟨u, rfl⟩ := hx
  obtain ⟨v, rfl⟩ := hy
  have huv : u < v := Nat.lt_of_mul_lt_mul_left hlt
  calc d * u + d = d * (u + 1) := by ring
    _ ≤ d * v := Nat.mul_le_mul_left d huv

/-- A subtree of `2 ^ k` leaves takes `2 ^ (k % 8)` hashes of the tiles at level `k / 8`. -/
theorem two_pow_eq_slots (k : ℕ) : 2 ^ k = 2 ^ (k % 8) * 256 ^ (k / 8) := by
  rw [show 256 = 2 ^ 8 by norm_num, ← pow_mul, ← pow_add]
  congr 1
  omega

theorem shiftRight_level (a level : ℕ) : a >>> (8 * level) = a / 256 ^ level := by
  rw [Nat.shiftRight_eq_div_pow, pow_mul]
  norm_num

/-- The index of the subtree's first hash on its level is a multiple of their number. -/
theorem two_pow_dvd_hashIndex (hdvd : 2 ^ k ∣ a) : 2 ^ (k % 8) ∣ a / 256 ^ (k / 8) := by
  rw [two_pow_eq_slots k] at hdvd
  exact Nat.dvd_div_of_mul_dvd (by rwa [Nat.mul_comm] at hdvd)

theorem hashIndex_mul (hdvd : 2 ^ k ∣ a) : a / 256 ^ (k / 8) * 256 ^ (k / 8) = a := by
  refine Nat.div_mul_cancel (dvd_trans ?_ hdvd)
  rw [two_pow_eq_slots k]
  exact Dvd.intro_left _ rfl

/-- The hashes of a complete subtree do not reach over the end of a full tile. -/
theorem slot_add_le (hdvd : 2 ^ k ∣ a) : a / 256 ^ (k / 8) % 256 + 2 ^ (k % 8) ≤ 256 := by
  have hfull : 2 ^ (k % 8) ∣ 256 := pow_dvd_pow 2 (by omega : k % 8 ≤ 8)
  apply add_le_of_dvd_of_lt _ hfull (Nat.mod_lt _ (by omega))
  rw [Nat.dvd_mod_iff hfull]
  exact two_pow_dvd_hashIndex hdvd

/-- The guarded shift is the tile's index on its level. -/
theorem tileShift_eq (hk : k < 64) (ha : a < 2 ^ 64) :
    (if 8 * (k / 8 + 1) ≥ 64 then 0 else a >>> (8 * (k / 8 + 1))) = a / 256 ^ (k / 8 + 1) := by
  split
  · have h8 : k / 8 + 1 = 8 := by omega
    rw [h8, Nat.div_eq_of_lt (by omega)]
  · exact shiftRight_level a _

/-- The run that the shifts and masks of the planner compute. -/
theorem blockToSlotRun_eq {w : TileWidth} (hk : k < 64) (ha : a < 2 ^ 64)
    (hw : tileWidth (k / 8) (a / 256 ^ (k / 8 + 1)) n = some w) :
    blockToSlotRun a (2 ^ k) n = .ok ⟨⟨k / 8, a / 256 ^ (k / 8 + 1), w⟩,
      a / 256 ^ (k / 8) % 256, 2 ^ (k % 8)⟩ := by
  have hmask : a / 256 ^ (k / 8) &&& 255 = a / 256 ^ (k / 8) % 256 :=
    Nat.and_two_pow_sub_one_eq_mod _ 8
  have hrun : 1 <<< (k - 8 * (k / 8)) = 2 ^ (k % 8) := by
    rw [Nat.one_shiftLeft]
    congr 1
    omega
  simp only [blockToSlotRun, trailingZeros_two_pow, tileHeight, fullTileHashes_eq,
    shiftRight_level a (k / 8), tileShift_eq hk ha, hmask, hrun, Nat.reduceSub]
  rw [if_neg (by omega), if_neg (by omega), hw]

/-- The slots of a complete aligned subtree: consecutive stored hashes of one tile. -/
theorem blockToSlotRun_spec (hdvd : 2 ^ k ∣ a) (hle : a + 2 ^ k ≤ n.toNat) :
    ∃ w : TileWidth, ∃ slot, blockToSlotRun a (2 ^ k) n =
        .ok ⟨⟨k / 8, a / 256 ^ (k / 8 + 1), w⟩, slot, 2 ^ (k % 8)⟩ ∧
      a / 256 ^ (k / 8 + 1) * 256 < hashesAtLevel n (k / 8) ∧
      tileWidth (k / 8) (a / 256 ^ (k / 8 + 1)) n = some w ∧
      slot + 2 ^ (k % 8) ≤ w.get ∧
      (a / 256 ^ (k / 8 + 1) * 256 + slot) * 256 ^ (k / 8) = a := by
  have hn := n.toNat_lt
  have hpow := Nat.two_pow_pos k
  have hk : k < 64 := (Nat.pow_lt_pow_iff_right (a := 2) (by omega)).mp (by omega)
  have hcount : a / 256 ^ (k / 8) + 2 ^ (k % 8) ≤ hashesAtLevel n (k / 8) := by
    rw [hashesAtLevel_eq_div, Nat.le_div_iff_mul_le (Nat.pow_pos (by omega)), Nat.add_mul,
      hashIndex_mul hdvd, ← two_pow_eq_slots]
    exact hle
  have htile : a / 256 ^ (k / 8 + 1) = a / 256 ^ (k / 8) / 256 := by
    rw [pow_succ, Nat.div_div_eq_div_mul]
  have hslot := slot_add_le hdvd
  have hrun := Nat.two_pow_pos (k % 8)
  have hbase : a / 256 ^ (k / 8 + 1) * 256 < hashesAtLevel n (k / 8) := by
    rw [htile]
    omega
  have hw := tileWidth_eq_some hbase
  refine ⟨_, _, blockToSlotRun_eq hk (by omega) hw, hbase, hw, ?_, ?_⟩
  · simp only [htile]
    omega
  · rw [htile, Nat.div_add_mod', hashIndex_mul hdvd]

/-- Looking up a coordinate that the geometry names finds a tile with the level's hashes. -/
theorem find_tile {L N : ℕ} {w : TileWidth} (hlen : leaves.length < 2 ^ 64)
    (hN : N * 256 < hashesAtLevel (UInt64.ofNat leaves.length) L)
    (hw : tileWidth L N (UInt64.ofNat leaves.length) = some w) :
    ∃ t, (buildTiles H leaves).find? (fun t => t.coord = ⟨L, N, w⟩) = some t ∧
      t ∈ buildTiles H leaves ∧ t.coord = ⟨L, N, w⟩ ∧
      ∀ j < w.get, t.hashes[j]? = some (mth H (leaves.extract ((N * 256 + j) * 256 ^ L)
        ((N * 256 + j + 1) * 256 ^ L))) := by
  have hsize : (UInt64.ofNat leaves.length).toNat = leaves.length :=
    UInt64.toNat_ofNat_of_lt' hlen
  obtain ⟨u, hu⟩ : ∃ u, buildTile H leaves L
      (hashesAtLevel (UInt64.ofNat leaves.length) L) N = some u := buildTile_isSome hN
  have hmem : u ∈ buildTiles H leaves := mem_buildTilesFrom.mpr ⟨L, N, by omega, hN, hu⟩
  have hcoord : u.coord = ⟨L, N, w⟩ := by
    obtain ⟨hl, hi, hwidth, -⟩ := buildTile_spec hu
    rw [tileWidth_eq_some hN, Option.some.injEq] at hw
    have hw' : u.coord.width = w := TileWidth.ext (by rw [hwidth, ← hw])
    rw [← hl, ← hi, ← hw']
  obtain ⟨t, ht⟩ := Option.isSome_iff_exists.mp
    (List.find?_isSome.mpr ⟨u, hmem, by simpa using hcoord⟩ :
      ((buildTiles H leaves).find? (fun t => t.coord = ⟨L, N, w⟩)).isSome)
  have htmem := List.mem_of_find?_eq_some ht
  have htcoord : t.coord = ⟨L, N, w⟩ := by simpa using List.find?_some ht
  refine ⟨t, ht, htmem, htcoord, ?_⟩
  intro j hj
  obtain ⟨L', N', -, hN', hbuild⟩ := mem_buildTilesFrom.mp htmem
  obtain ⟨hl, hi, hwidth, hget⟩ := buildTile_spec hbuild
  rw [htcoord] at hl hi hwidth hget
  simp only at hl hi hwidth hget
  subst hl hi
  have hmul := hashesAtLevel_mul_le (UInt64.ofNat leaves.length) L
  rw [hsize] at hmul
  rw [hget j hj, subtreeRoot_eq hlen (le_trans (Nat.mul_le_mul_right _ (by omega)) hmul)]

/-- What a planned run must be for the block `[a, b)`: slots inside a real tile whose
balanced hash is the tree hash of the block. -/
structure RunFor (H : Hasher) (leaves : List HashOutput) (a b : ℕ) (run : TileSlotRun) : Prop where
  inside : run.Inside (buildTiles H leaves)
  hash_eq : blockHash H (buildTiles H leaves) run = some (mth H (leaves.extract a b))

theorem runFor_of_aligned (hlen : leaves.length < 2 ^ 64) (hdvd : 2 ^ k ∣ a)
    (hle : a + 2 ^ k ≤ leaves.length) :
    ∃ run, blockToSlotRun a (2 ^ k) (UInt64.ofNat leaves.length) = .ok run ∧
      RunFor H leaves a (a + 2 ^ k) run := by
  have hsize : (UInt64.ofNat leaves.length).toNat = leaves.length :=
    UInt64.toNat_ofNat_of_lt' hlen
  obtain ⟨w, slot, hrun, hbase, hw, hslot, hstart⟩ :=
    blockToSlotRun_spec (n := UInt64.ofNat leaves.length) hdvd (by omega)
  obtain ⟨t, hfind, hmem, hcoord, hget⟩ := find_tile (H := H) hlen hbase hw
  have hwidth : t.hashes.length = w.get := by rw [t.length_hashes, hcoord]
  have hpow : 2 ^ k = 2 ^ (k % 8) * 2 ^ (8 * (k / 8)) := by
    rw [← pow_add]
    congr 1
    omega
  have hspan : 256 ^ (k / 8) = 2 ^ (8 * (k / 8)) := by
    rw [pow_mul]
    norm_num
  have hslots : t.hashes.extract slot (slot + 2 ^ (k % 8)) =
      Merkle.blockRoots (hashNode H) (emptyRoot H) (leaves.extract a (a + 2 ^ k))
        (2 ^ (8 * (k / 8))) (2 ^ (k % 8)) := by
    apply List.ext_getElem?
    intro j
    by_cases hj : j < 2 ^ (k % 8)
    · have hblock : (j + 1) * 2 ^ (8 * (k / 8)) ≤ 2 ^ k := by
        rw [hpow]
        exact Nat.mul_le_mul_right _ hj
      rw [Slices.getElem?_extract (by omega), hget _ (by omega), Merkle.blockRoots,
        List.getElem?_map, List.getElem?_range hj, Option.map_some,
        Slices.extract_extract (by omega), ← mth_eq_root, ← hspan, ← Nat.add_assoc, Nat.add_mul,
        hstart, Nat.add_assoc _ j 1, Nat.add_mul, hstart]
    · rw [List.getElem?_eq_none, List.getElem?_eq_none]
      · rw [Merkle.length_blockRoots]
        omega
      · rw [Slices.length_extract (by omega)]
        omega
  refine ⟨_, hrun, ⟨t, hmem, hcoord, by rw [hcoord]; exact hslot⟩, ?_⟩
  rw [blockHash, hfind]
  simp only [Option.bind_eq_bind, Option.bind_some, hwidth, if_pos hslot, combineSubtreeRoots,
    hslots]
  rw [mth_eq_root, Merkle.root_blockRoots, ← mth_eq_root]
  rw [Slices.length_extract hle]
  omega

/-- The runs planned for an aligned range combine, leaning right, to its tree hash. -/
theorem siblingHash_of_runs {runs : List TileSlotRun} (h : AlignedRange a b)
    (hb : b < 2 ^ 64) (hlen : b ≤ leaves.length)
    (hruns : List.Forall₂ (fun block run => RunFor H leaves block.start block.stop run)
      (decomposeRange a b) runs) :
    siblingHash H (buildTiles H leaves) runs = some (mth H (leaves.extract a b)) := by
  induction hn : b - a using Nat.strong_induction_on generalizing a runs with
  | _ m ih =>
    have hlt := h.lt
    have hlog := Nat.log2_self_le (n := b - a) (by omega)
    have hpos := Nat.two_pow_pos (b - a).log2
    have hext := Slices.length_extract (l := leaves) (s := a) hlen
    rw [decomposeRange_aligned h hb] at hruns
    obtain ⟨run, rest, hrun, hrest, rfl⟩ := List.forall₂_cons_left_iff.mp hruns
    by_cases hmore : a + 2 ^ (b - a).log2 < b
    · have htail := ih _ (by omega) (h.tail hmore) hrest rfl
      obtain ⟨next, others, -, -, rfl⟩ := List.forall₂_cons_left_iff.mp
        (decomposeRange_aligned (h.tail hmore) hb ▸ hrest)
      rw [siblingHash, hrun.hash_eq, htail, mth_eq_root H (leaves.extract a b),
        Merkle.root_split_log2 (by rw [hext]; omega), hext, Slices.take_extract (by omega),
        Slices.drop_extract, ← mth_eq_root, ← mth_eq_root]
      · rfl
      · simp
    · have hend : a + 2 ^ (b - a).log2 = b := by omega
      rw [hend, decomposeRange, if_neg (by omega), List.forall₂_nil_left_iff] at hrest
      subst hrest
      rw [siblingHash, hrun.hash_eq, hend]

/-- Every block of an aligned range within the tree has its run. -/
theorem planStep_spec (hlen : leaves.length < 2 ^ 64) (h : AlignedRange a b)
    (hb : b ≤ leaves.length) :
    ∃ step, planStep (UInt64.ofNat leaves.length) (a, b) = .ok step ∧
      (∀ run ∈ step.blocks, run.Inside (buildTiles H leaves)) ∧
      siblingHash H (buildTiles H leaves) step.blocks = some (mth H (leaves.extract a b)) := by
  have hblocks : ∀ block ∈ decomposeRange a b, ∃ run,
      blockToSlotRun block.start block.len (UInt64.ofNat leaves.length) = .ok run ∧
        RunFor H leaves block.start block.stop run := by
    induction hn : b - a using Nat.strong_induction_on generalizing a with
    | _ m ih =>
      have hlt := h.lt
      have hlog := Nat.log2_self_le (n := b - a) (by omega)
      have hpos := Nat.two_pow_pos (b - a).log2
      rw [decomposeRange_aligned h (by omega)]
      intro block hblock
      rcases List.mem_cons.mp hblock with rfl | hblock
      · have hrun := runFor_of_aligned (H := H) hlen h.head_dvd (by omega)
        simpa [Subtree.len] using hrun
      · by_cases hmore : a + 2 ^ (b - a).log2 < b
        · exact ih _ (by omega) (h.tail hmore) rfl block hblock
        · rw [decomposeRange, if_neg hmore] at hblock
          cases hblock
  obtain ⟨runs, hruns, hall⟩ := Outcome.exists_mapM_eq_ok hblocks
  refine ⟨⟨runs⟩, ?_, ?_, siblingHash_of_runs h (by omega) hb hall⟩
  · rw [planStep, hruns]
    rfl
  · intro run hrun
    obtain ⟨block, -, hfor⟩ := Outcome.exists_of_mem_right hall hrun
    exact hfor.inside

/-- Assembling planned siblings one by one gives the hashes of their ranges. -/
theorem mapM_siblingHash {ranges : List (ℕ × ℕ)} {steps : List PathStep}
    (h : List.Forall₂ (fun r step => siblingHash H (buildTiles H leaves) step.blocks =
      some (mth H (leaves.extract r.1 r.2))) ranges steps) :
    steps.mapM (fun step => siblingHash H (buildTiles H leaves) step.blocks) =
      some (ranges.map (fun r => mth H (leaves.extract r.1 r.2))) := by
  induction h with
  | nil => rfl
  | cons hstep hrest ih =>
    rw [List.mapM_cons, hstep, ih]
    rfl

/-- The generated proof lists the tree hashes of the sibling ranges. -/
theorem generate_eq_ranges {index : Index} (hi : index.toNat < leaves.length) :
    InclusionProof.generate (⟨leaves⟩ : MerkleTree H) index =
      .ok ⟨UInt64.ofNat leaves.length, index,
        (siblingRanges 0 leaves.length index.toNat []).map
          (fun r => mth H (leaves.extract r.1 r.2))⟩ := by
  have hcollect := collectSiblings_eq_ranges (H := H) (i := index.toNat) []
    (le_refl leaves.length) (Nat.zero_le _) hi
  rw [List.map_nil] at hcollect
  have hlen : (⟨leaves⟩ : MerkleTree H).len = leaves.length := rfl
  rw [InclusionProof.generate, if_neg (by rw [hlen]; omega), hlen]
  rw [hcollect]
  rfl

/-- Planning and reading tiles gives the proof that the tree itself would generate. -/
theorem planInclusion_refines_generate (leaves : List HashOutput) (index : Index)
    (hlen : leaves.length < 2 ^ 64) (hi : index.toNat < leaves.length) :
    ∃ plan proof, planInclusion (UInt64.ofNat leaves.length) index = .ok plan ∧
      InclusionProof.generate (⟨leaves⟩ : MerkleTree H) index = .ok proof ∧
      (∀ run ∈ plan.leaf :: plan.steps.flatMap PathStep.blocks,
        run.Inside (buildTiles H leaves)) ∧
      plan.leaf.len = 1 ∧
      blockHash H (buildTiles H leaves) plan.leaf = leaves[index.toNat]? ∧
      assemblePath H (buildTiles H leaves) plan = some proof.auditPath := by
  have hsize : (UInt64.ofNat leaves.length).toNat = leaves.length :=
    UInt64.toNat_ofNat_of_lt' hlen
  have hwhole : AlignedRange 0 leaves.length :=
    alignedRange_of_dvd (by omega) (Nat.dvd_zero _) (by omega : _ ≤ 2 ^ 64)
  obtain ⟨leaf, hleafOk, hleaf⟩ :=
    runFor_of_aligned (H := H) (a := index.toNat) (k := 0) hlen (one_dvd _) hi
  have hone : leaf.len = 1 := by
    obtain ⟨w, slot, hslotOk, -⟩ := blockToSlotRun_spec (n := UInt64.ofNat leaves.length)
      (a := index.toNat) (k := 0) (one_dvd _) (by omega)
    rw [hleafOk, Except.ok.injEq] at hslotOk
    rw [hslotOk]
    rfl
  have hsteps : ∀ r ∈ siblingRanges 0 leaves.length index.toNat [], ∃ step,
      planStep (UInt64.ofNat leaves.length) r = .ok step ∧
      (∀ run ∈ step.blocks, run.Inside (buildTiles H leaves)) ∧
      siblingHash H (buildTiles H leaves) step.blocks =
        some (mth H (leaves.extract r.1 r.2)) := by
    intro r hr
    rcases siblingRanges_aligned hwhole (Nat.zero_le _) hi r hr with hr | ⟨hr, hle⟩
    · cases hr
    · exact planStep_spec hlen hr hle
  obtain ⟨steps, hstepsOk, hall⟩ := Outcome.exists_mapM_eq_ok hsteps
  refine ⟨⟨UInt64.ofNat leaves.length, index, leaf, steps⟩, _, ?_, generate_eq_ranges hi, ?_,
    hone, ?_, mapM_siblingHash (hall.imp fun _ _ h => h.2)⟩
  · simp only [planInclusion, hsize]
    rw [if_neg (by omega), ← pow_zero 2, hleafOk, Outcome.ok_bind, hstepsOk, Outcome.ok_bind]
  · intro run hrun
    rcases List.mem_cons.mp hrun with rfl | hrun
    · exact hleaf.inside
    · obtain ⟨step, hstep, hblock⟩ := List.mem_flatMap.mp hrun
      obtain ⟨r, -, hinside, -⟩ := Outcome.exists_of_mem_right hall hstep
      exact hinside run hblock
  · rw [hleaf.hash_eq, pow_zero, mth_extract_succ H hi]

theorem planInclusion_refines_generate_second :
    ∃ plan proof, planInclusion 3 1 = .ok plan ∧
      InclusionProof.generate (⟨InclusionProof.sampleLeaves⟩ : MerkleTree residueHasher) 1 =
        .ok proof ∧
      assemblePath residueHasher (buildTiles residueHasher InclusionProof.sampleLeaves) plan =
        some proof.auditPath :=
  let ⟨plan, proof, hplan, hgen, _, _, _, hpath⟩ := planInclusion_refines_generate
    (H := residueHasher) InclusionProof.sampleLeaves 1 (by decide) (by decide)
  ⟨plan, proof, hplan, hgen, hpath⟩

end Mtc
