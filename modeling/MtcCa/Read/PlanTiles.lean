import MtcCa.Read.PlanCorrect

/-! The tiles of a plan are those that the geometry names. The planner decomposes the sibling
ranges one by one, the geometry the two sides of the leaf; both meet the same blocks. -/
namespace Mtc

variable {n : TreeSize} {a b c e i : ℕ} {block : Subtree}

/-- Where the alignment binds before the span does, the step is the alignment. -/
theorem blockStep_of_unaligned (ha : 0 < a) (hspan : a + 2 ^ trailingZeros a ≤ b) :
    blockStep a b = 2 ^ trailingZeros a := by
  simp only [blockStep, largestPow2Le_eq, Nat.one_shiftLeft, if_neg (show ¬ a = 0 by omega)]
  apply Nat.min_eq_left
  apply Nat.pow_le_pow_right (by omega)
  exact (Nat.le_log2 (by have := Nat.two_pow_pos (trailingZeros a); omega)).mpr (by omega)

/-- Every step is a power of two that divides its start and fits. -/
theorem blockStep_spec (hlt : a < b) (hb : b < 2 ^ 64) :
    ∃ k, blockStep a b = 2 ^ k ∧ 2 ^ k ∣ a ∧ a + 2 ^ k ≤ b := by
  have hlog := Nat.log2_self_le (n := b - a) (by omega)
  by_cases ha : a = 0
  · subst ha
    refine ⟨(b - 0).log2, ?_, Nat.dvd_zero _, by omega⟩
    simp only [blockStep, largestPow2Le_eq, if_true]
    omega
  · simp only [blockStep, largestPow2Le_eq, Nat.one_shiftLeft, if_neg ha]
    have hdvd : 2 ^ trailingZeros a ∣ a :=
      (two_pow_dvd_iff_le_trailingZeros (by omega)).mpr (le_refl _)
    rcases le_total (2 ^ trailingZeros a) (2 ^ (b - a).log2) with h | h
    · exact ⟨trailingZeros a, Nat.min_eq_left h, hdvd, by omega⟩
    · refine ⟨(b - a).log2, Nat.min_eq_right h, dvd_trans ?_ hdvd, by omega⟩
      exact pow_dvd_pow 2 ((Nat.pow_le_pow_iff_right (by omega)).mp h)

/-- Every block is a complete aligned subtree below the end of the range. -/
theorem decomposeRange_blocks (hb : b < 2 ^ 64) (h : block ∈ decomposeRange a b) :
    ∃ k, block = ⟨block.start, block.start + 2 ^ k⟩ ∧ 2 ^ k ∣ block.start ∧
      block.start + 2 ^ k ≤ b := by
  induction hm : b - a using Nat.strong_induction_on generalizing a with
  | _ m ih =>
    rw [decomposeRange] at h
    split at h
    · next hlt =>
      obtain ⟨k, hstep, hdvd, hle⟩ := blockStep_spec hlt hb
      have hpos := Nat.two_pow_pos k
      simp only [hstep] at h
      rcases List.mem_cons.mp h with rfl | h
      · exact ⟨k, rfl, hdvd, hle⟩
      · exact ih _ (by omega) h rfl
    · cases h

theorem decomposeRange_of_lt (h : a < b) : decomposeRange a b =
    ⟨a, a + blockStep a b⟩ :: decomposeRange (a + blockStep a b) b := by
  rw [decomposeRange, if_pos h]

theorem decomposeRange_self : decomposeRange a a = [] := by
  rw [decomposeRange, if_neg (lt_irrefl a)]

/-- No block from inside the last aligned stretch before `b` reaches over `b`. -/
theorem decomposeRange_append (hdvd : 2 ^ e ∣ b) (hlow : b < a + 2 ^ e) (hab : a ≤ b)
    (hbc : b ≤ c) : decomposeRange a c = decomposeRange a b ++ decomposeRange b c := by
  induction hm : b - a using Nat.strong_induction_on generalizing a with
  | _ m ih =>
    by_cases heq : a = b
    · rw [heq, decomposeRange_self, List.nil_append]
    · have ha : 0 < a := by
        by_contra h0
        have := Nat.le_of_dvd (by omega) hdvd
        omega
      have htz : 2 ^ trailingZeros a ∣ a :=
        (two_pow_dvd_iff_le_trailingZeros ha).mpr (le_refl _)
      have hlt : trailingZeros a < e := by
        by_contra hge
        have hae : 2 ^ e ∣ a := (two_pow_dvd_iff_le_trailingZeros ha).mpr (by omega)
        have := add_le_of_dvd_of_lt hae hdvd (by omega)
        omega
      have hfit : a + 2 ^ trailingZeros a ≤ b :=
        add_le_of_dvd_of_lt htz (dvd_trans (pow_dvd_pow 2 hlt.le) hdvd) (by omega)
      have hpos := Nat.two_pow_pos (trailingZeros a)
      rw [decomposeRange_of_lt (b := c) (by omega), decomposeRange_of_lt (b := b) (by omega),
        blockStep_of_unaligned ha hfit, blockStep_of_unaligned ha (by omega),
        ih _ (by omega) (by omega) hfit rfl, List.cons_append]

/-- An aligned range of a power of two is one block. -/
theorem decomposeRange_two_pow (hdvd : 2 ^ e ∣ a) (hlt : a + 2 ^ e < 2 ^ 64) :
    decomposeRange a (a + 2 ^ e) = [⟨a, a + 2 ^ e⟩] := by
  have hpos := Nat.two_pow_pos e
  rw [decomposeRange_aligned (alignedRange_of_dvd (by omega) hdvd (by omega)) hlt,
    Nat.add_sub_cancel_left, Nat.log2_two_pow, decomposeRange_self]

/-- The first block of an aligned range that reaches `2 ^ e` but not twice that far. -/
theorem decomposeRange_head (hle : a + 2 ^ e ≤ b) (hlt : b < a + 2 ^ (e + 1))
    (hal : AlignedRange a b) (hb : b < 2 ^ 64) :
    decomposeRange a b = ⟨a, a + 2 ^ e⟩ :: decomposeRange (a + 2 ^ e) b := by
  have hlog : (b - a).log2 = e :=
    (Nat.log2_eq_iff (by have := Nat.two_pow_pos e; omega)).mpr ⟨by omega, by omega⟩
  rw [decomposeRange_aligned hal hb, hlog]

/-- The blocks of the sibling ranges are those on the two sides of the leaf. -/
theorem mem_siblingBlocks {start stop : ℕ} (h : AlignedRange start stop) (hlo : start ≤ i)
    (hhi : i < stop) (hstop : stop < 2 ^ 64) :
    (∃ r ∈ siblingRanges start stop i [], block ∈ decomposeRange r.1 r.2) ↔
      block ∈ decomposeRange start i ∨ block ∈ decomposeRange (i + 1) stop := by
  induction hm : stop - start using Nat.strong_induction_on generalizing start stop with
  | _ m ih =>
    rw [siblingRanges]
    by_cases hshort : stop - start ≤ 1
    · obtain rfl : i = start := by omega
      obtain rfl : stop = i + 1 := by omega
      rw [if_pos hshort, decomposeRange_self, decomposeRange_self]
      simp
    · have hlt := Merkle.split_lt (n := stop - start) (by omega)
      have hle := Merkle.le_two_mul_split (n := stop - start) (by omega)
      have hpos := Merkle.split_pos (stop - start)
      have hdvd : Merkle.split (stop - start) ∣ start := h.dvd_of_lt hlt
      obtain ⟨hleft, hright⟩ := h.split (by omega)
      simp only [if_neg hshort, largestPowerOfTwoBelow_eq_split]
      split
      · next hik =>
        have hsplit : decomposeRange (i + 1) stop =
            decomposeRange (i + 1) (start + Merkle.split (stop - start)) ++
              decomposeRange (start + Merkle.split (stop - start)) stop :=
          decomposeRange_append (e := (stop - start - 1).log2)
            (Nat.dvd_add hdvd (Nat.dvd_refl _)) (by rw [← Merkle.split]; omega) (by omega)
            (by omega)
        have hinner := ih _ (by omega) hleft hlo hik (by omega) rfl
        rw [hsplit, List.mem_append, ← or_assoc, ← hinner]
        simp [or_and_right, exists_or]
      · next hik =>
        have hal : AlignedRange start i := by
          obtain ⟨e, hdvd, hle⟩ := h.aligned
          exact alignedRange_of_dvd (by omega) hdvd (by omega)
        have hhead : decomposeRange start i =
            ⟨start, start + Merkle.split (stop - start)⟩ ::
              decomposeRange (start + Merkle.split (stop - start)) i :=
          decomposeRange_head (by rw [← Merkle.split]; omega)
            (by rw [pow_succ, ← Merkle.split]; omega) hal (by omega)
        have hinner := ih _ (by omega) hright (by omega) hhi hstop rfl
        have hone : decomposeRange start (start + Merkle.split (stop - start)) =
            [⟨start, start + Merkle.split (stop - start)⟩] :=
          decomposeRange_two_pow hdvd (by rw [← Merkle.split]; omega)
        rw [hhead, List.mem_cons, or_assoc, ← hinner]
        simp [or_and_right, exists_or, hone, or_comm]

/-- Both enumerations map a complete aligned subtree to the same tile. -/
theorem tileForSubtree_blockToSlotRun {k : ℕ} (hdvd : 2 ^ k ∣ a) (hle : a + 2 ^ k ≤ n.toNat) :
    ∃ run, blockToSlotRun a (2 ^ k) n = .ok run ∧
      tileForSubtree ⟨a, a + 2 ^ k⟩ n = .ok run.coord := by
  obtain ⟨w, slot, hrun, -, hw, -⟩ := blockToSlotRun_spec hdvd hle
  refine ⟨_, hrun, ?_⟩
  have hn := n.toNat_lt
  have hpos := Nat.two_pow_pos k
  have hk : k < 64 := (Nat.pow_lt_pow_iff_right (a := 2) (by omega)).mp (by omega)
  simp only [tileForSubtree, Subtree.len, Nat.add_sub_cancel_left, trailingZeros_two_pow,
    tileHeight, if_pos (show k / 8 < 2 ^ 8 by omega), tileShift_eq hk (show a < 2 ^ 64 by omega)]
  rw [hw]

/-- One block on both sides. -/
theorem mapped_block (h : block ∈ decomposeRange a b) (hb : b ≤ n.toNat) :
    ∃ run, blockToSlotRun block.start block.len n = .ok run ∧
      tileForSubtree block n = .ok run.coord := by
  have hn := n.toNat_lt
  obtain ⟨k, hblock, hdvd, hle⟩ := decomposeRange_blocks (by omega) h
  obtain ⟨run, hrun, htile⟩ := tileForSubtree_blockToSlotRun hdvd (hle.trans hb)
  rw [← hblock] at htile
  refine ⟨run, ?_, htile⟩
  rw [hblock, Subtree.len, Nat.add_sub_cancel_left]
  exact hrun

/-- A step succeeds and refers to the tiles of its range's blocks. -/
theorem planStep_tiles {r : ℕ × ℕ} (hr : r.2 ≤ n.toNat) :
    ∃ step, planStep n r = .ok step ∧ List.Forall₂
      (fun block run => tileForSubtree block n = .ok run.coord)
      (decomposeRange r.1 r.2) step.blocks := by
  obtain ⟨blocks, hblocks, hall⟩ := Outcome.exists_mapM_eq_ok (fun block hblock =>
    mapped_block (n := n) hblock hr)
  exact ⟨⟨blocks⟩, by rw [planStep, hblocks]; rfl, hall⟩

/-- The tiles that the two sides of a pairing refer to. -/
theorem mem_coords_of_forall₂ {blocks : List Subtree} {runs : List TileSlotRun} {c : TileCoord}
    (h : List.Forall₂ (fun block run => tileForSubtree block n = .ok run.coord) blocks runs) :
    c ∈ runs.map TileSlotRun.coord ↔ ∃ block ∈ blocks, tileForSubtree block n = .ok c := by
  constructor
  · intro hc
    obtain ⟨run, hrun, rfl⟩ := List.mem_map.mp hc
    obtain ⟨block, hblock, htile⟩ := Outcome.exists_of_mem_right h hrun
    exact ⟨block, hblock, htile⟩
  · rintro ⟨block, hblock, hc⟩
    obtain ⟨run, hrun, htile⟩ := Outcome.exists_of_mem_right h.flip hblock
    rw [htile, Except.ok.injEq] at hc
    exact List.mem_map.mpr ⟨run, hrun, hc⟩

/-- The tiles that the steps of a plan refer to. -/
theorem mem_steps_of_forall₂ {ranges : List (ℕ × ℕ)} {steps : List PathStep} {c : TileCoord}
    (h : List.Forall₂ (fun r step => List.Forall₂
      (fun block run => tileForSubtree block n = .ok run.coord)
      (decomposeRange r.1 r.2) step.blocks) ranges steps) :
    c ∈ steps.flatMap (fun step => step.blocks.map TileSlotRun.coord) ↔
      ∃ block, (∃ r ∈ ranges, block ∈ decomposeRange r.1 r.2) ∧
        tileForSubtree block n = .ok c := by
  rw [List.mem_flatMap]
  constructor
  · rintro ⟨step, hstep, hc⟩
    obtain ⟨r, hr, hblocks⟩ := Outcome.exists_of_mem_right h hstep
    obtain ⟨block, hblock, htile⟩ := (mem_coords_of_forall₂ hblocks).mp hc
    exact ⟨block, ⟨r, hr, hblock⟩, htile⟩
  · rintro ⟨block, ⟨r, hr, hblock⟩, htile⟩
    obtain ⟨step, hstep, hblocks⟩ := Outcome.exists_of_mem_right h.flip hr
    exact ⟨step, hstep, (mem_coords_of_forall₂ hblocks).mpr ⟨block, hblock, htile⟩⟩

/-- The geometry's list succeeds on blocks of the tree and names their tiles. -/
theorem mapM_tileForSubtree {blocks : List Subtree}
    (h : ∀ block ∈ blocks, ∃ c, tileForSubtree block n = .ok c) :
    ∃ coords, blocks.mapM (fun block => tileForSubtree block n) = .ok coords ∧
      ∀ c, c ∈ coords ↔ ∃ block ∈ blocks, tileForSubtree block n = .ok c := by
  obtain ⟨coords, hcoords, -⟩ := Outcome.exists_mapM_eq_ok (P := fun _ _ => True)
    (fun block hblock => (h block hblock).imp (fun _ hc => ⟨hc, trivial⟩))
  have hall := Outcome.forall₂_of_mapM_eq_ok hcoords
  refine ⟨coords, hcoords, ?_⟩
  intro c
  constructor
  · intro hc
    obtain ⟨block, hblock, htile⟩ := Outcome.exists_of_mem_right hall hc
    exact ⟨block, hblock, htile⟩
  · rintro ⟨block, hblock, hc⟩
    obtain ⟨c', hc', htile⟩ := Outcome.exists_of_mem_right hall.flip hblock
    rw [htile, Except.ok.injEq] at hc
    exact hc ▸ hc'

/-- Every plan succeeds and fetches exactly the tiles the geometry names. -/
theorem planInclusion_tiles (n : TreeSize) (i : Index) (hi : i.toNat < n.toNat) :
    ∃ plan tiles, planInclusion n i = .ok plan ∧ tilesForInclusion i n = .ok tiles ∧
      ∀ c, c ∈ plan.tiles ↔ c ∈ tiles := by
  have hn := n.toNat_lt
  have hwhole : AlignedRange 0 n.toNat :=
    alignedRange_of_dvd (by omega) (Nat.dvd_zero _) (by omega : _ ≤ 2 ^ 64)
  have hinside : ∀ r ∈ siblingRanges 0 n.toNat i.toNat [], r.2 ≤ n.toNat := by
    intro r hr
    rcases siblingRanges_aligned hwhole (Nat.zero_le _) hi r hr with hr | ⟨-, hle⟩
    · cases hr
    · exact hle
  obtain ⟨leaf, hleaf, hleafTile⟩ :=
    tileForSubtree_blockToSlotRun (n := n) (a := i.toNat) (k := 0) (one_dvd _) (by omega)
  obtain ⟨steps, hsteps, hall⟩ := Outcome.exists_mapM_eq_ok (fun r hr =>
    planStep_tiles (hinside r hr))
  have hblocks : ∀ block ∈ [⟨i.toNat, i.toNat + 1⟩] ++ decomposeRange 0 i.toNat ++
      decomposeRange (i.toNat + 1) n.toNat, ∃ c, tileForSubtree block n = .ok c := by
    intro block hblock
    rcases List.mem_append.mp hblock with hblock | hblock
    · rcases List.mem_append.mp hblock with hblock | hblock
      · rw [List.mem_singleton.mp hblock]
        exact ⟨_, hleafTile⟩
      · obtain ⟨run, -, htile⟩ := mapped_block hblock hi.le
        exact ⟨_, htile⟩
    · obtain ⟨run, -, htile⟩ := mapped_block hblock (le_refl _)
      exact ⟨_, htile⟩
  obtain ⟨coords, hcoords, hmem⟩ := mapM_tileForSubtree hblocks
  refine ⟨⟨n, i, leaf, steps⟩, sortDedup coords, ?_, ?_, ?_⟩
  · simp only [planInclusion, if_neg (show ¬ i.toNat ≥ n.toNat by omega)]
    rw [show blockToSlotRun i.toNat 1 n = .ok leaf from hleaf, Outcome.ok_bind, hsteps]
    rfl
  · simp only [tilesForInclusion, if_neg (show ¬ i.toNat ≥ n.toNat by omega)]
    rw [hcoords]
    rfl
  · intro c
    rw [TilePlan.tiles, mem_sortDedup, mem_sortDedup, hmem, List.mem_cons,
      mem_steps_of_forall₂ hall]
    simp only [mem_siblingBlocks hwhole (Nat.zero_le _) hi hn, List.mem_append,
      List.mem_singleton, or_assoc, or_and_right, exists_or, exists_eq_left]
    rw [show tileForSubtree ⟨i.toNat, i.toNat + 1⟩ n = .ok leaf.coord from hleafTile,
      Except.ok.injEq, eq_comm]

theorem planInclusion_tiles_last : ∃ plan tiles,
    planInclusion 18446744073709551615 18446744073709551614 = .ok plan ∧
      tilesForInclusion 18446744073709551614 18446744073709551615 = .ok tiles ∧
      ∀ c, c ∈ plan.tiles ↔ c ∈ tiles :=
  planInclusion_tiles 18446744073709551615 18446744073709551614 (by decide)

end Mtc
