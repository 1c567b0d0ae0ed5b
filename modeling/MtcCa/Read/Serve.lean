import MtcCa.Lib.FiniteMap
import MtcCa.Read.PlanCorrect
import MtcCa.Tile.Served

/-! Serving inclusion proofs from tile files, by the assembly that the planner documents
(`crates/mtc-read/src/lib.rs`): plan, read each planned tile from the file at its path, and hash
the planned slots. -/
namespace Mtc

variable {H : Hasher} {leaves : List HashOutput} {tiles ts : List Tile} {index : Index}
  {file : String → Option (List UInt8)}

/-- The tile at a coordinate, from the file at its path. -/
def fetchTile (file : String → Option (List UInt8)) (c : TileCoord) : Option Tile := do
  let bytes ← file c.path
  (Tile.fromBytes c bytes).toOption

/-- The leaf hash and the inclusion proof of a leaf, from tile files alone. -/
def serveInclusion (H : Hasher) (file : String → Option (List UInt8)) (treeSize : TreeSize)
    (index : Index) : Option (HashOutput × InclusionProof) := do
  let plan ← (planInclusion treeSize index).toOption
  let tiles ← plan.tiles.mapM (fetchTile file)
  let leaf ← blockHash H tiles plan.leaf
  let auditPath ← assemblePath H tiles plan
  some (leaf, ⟨treeSize, index, auditPath⟩)

/-- A plan names the run of the leaf, and for each sibling range runs that hash to it. -/
theorem exists_plan (hlen : leaves.length < 2 ^ 64) (hi : index.toNat < leaves.length) :
    ∃ plan, planInclusion (UInt64.ofNat leaves.length) index = .ok plan ∧
      RunFor H leaves index.toNat (index.toNat + 1) plan.leaf ∧
      List.Forall₂ (fun r step => (∀ run ∈ step.blocks, run.Inside (buildTiles H leaves)) ∧
          siblingHash H (buildTiles H leaves) step.blocks =
            some (mth H (leaves.extract r.1 r.2)))
        (siblingRanges 0 leaves.length index.toNat []) plan.steps := by
  have hsize : (UInt64.ofNat leaves.length).toNat = leaves.length :=
    UInt64.toNat_ofNat_of_lt' hlen
  have hwhole : AlignedRange 0 leaves.length :=
    alignedRange_of_dvd (by omega) (Nat.dvd_zero _) (by omega : _ ≤ 2 ^ 64)
  obtain ⟨leaf, hleaf, hfor⟩ :=
    runFor_of_aligned (H := H) (a := index.toNat) (k := 0) hlen (one_dvd _) hi
  obtain ⟨steps, hsteps, hall⟩ := Outcome.exists_mapM_eq_ok
    (l := siblingRanges 0 leaves.length index.toNat []) (fun r hr => by
      obtain hr | ⟨hr, hle⟩ := siblingRanges_aligned hwhole (Nat.zero_le _) hi r hr
      · cases hr
      · exact planStep_spec (H := H) hlen hr hle)
  refine ⟨⟨UInt64.ofNat leaves.length, index, leaf, steps⟩, ?_, hfor, hall⟩
  simp only [planInclusion, hsize]
  rw [if_neg (by omega), ← pow_zero 2, hleaf, Outcome.ok_bind, hsteps, Outcome.ok_bind]

/-- Fetching finds what a tile set finds, when the files hold its tiles. -/
theorem mapM_fetchTile {cs : List TileCoord}
    (h : ∀ c ∈ cs, ∃ t, tiles.find? (fun t => t.coord = c) = some t ∧ fetchTile file c = some t) :
    ∃ ts, cs.mapM (fetchTile file) = some ts ∧ ∀ c ∈ cs,
      ts.find? (fun t => t.coord = c) = tiles.find? (fun t => t.coord = c) := by
  induction cs with
  | nil => exact ⟨[], rfl, by simp⟩
  | cons c cs ih =>
    obtain ⟨ts, hts, hfind⟩ := ih (fun c' hc' => h c' (List.mem_cons_of_mem _ hc'))
    obtain ⟨t, ht, hfetch⟩ := h c (List.mem_cons_self ..)
    have hcoord : t.coord = c := by simpa using List.find?_some ht
    refine ⟨t :: ts, by rw [List.mapM_cons, hfetch, hts]; rfl, ?_⟩
    intro c' hc'
    by_cases heq : c = c'
    · subst heq
      rw [List.find?_cons_of_pos (by simpa using hcoord), ht]
    · rw [List.find?_cons_of_neg (by simpa [hcoord] using heq)]
      exact hfind c' ((List.mem_cons.mp hc').resolve_left (fun h => heq h.symm))

/-- Both tile sets find the same tile for each of the runs. -/
def FindAlike (ts tiles : List Tile) (runs : List TileSlotRun) : Prop :=
  ∀ run ∈ runs, ts.find? (fun t => t.coord = run.coord) =
    tiles.find? (fun t => t.coord = run.coord)

theorem FindAlike.blockHash_eq {runs : List TileSlotRun} {run : TileSlotRun}
    (h : FindAlike ts tiles runs) (hrun : run ∈ runs) :
    blockHash H ts run = blockHash H tiles run := by
  rw [blockHash, blockHash, h run hrun]

theorem FindAlike.siblingHash_eq {runs : List TileSlotRun} (h : FindAlike ts tiles runs) :
    siblingHash H ts runs = siblingHash H tiles runs := by
  induction runs with
  | nil => rfl
  | cons run runs ih =>
    have hrest := ih (fun r hr => h r (List.mem_cons_of_mem _ hr))
    cases runs with
    | nil => exact h.blockHash_eq (List.mem_singleton_self _)
    | cons next others =>
      rw [siblingHash, h.blockHash_eq (List.mem_cons_self ..), hrest]
      · conv_rhs => rw [siblingHash.eq_3 _ _ _ _ (by simp)]
      · simp

/-- The paths assembled step by step from sibling hashes that are known. -/
theorem mapM_siblingHash_eq {ranges : List (ℕ × ℕ)} {steps : List PathStep}
    {g : ℕ × ℕ → HashOutput}
    (h : List.Forall₂ (fun r step => siblingHash H ts step.blocks = some (g r)) ranges steps) :
    steps.mapM (fun step => siblingHash H ts step.blocks) = some (ranges.map g) := by
  induction h with
  | nil => rfl
  | cons hstep hrest ih =>
    rw [List.mapM_cons, hstep, ih]
    rfl

/-- A tile set whose tiles are all in their files serves every proof of its tree. -/
theorem serveInclusion_eq (hlen : leaves.length < 2 ^ 64) (hi : index.toNat < leaves.length)
    (hfile : ∀ t ∈ buildTiles H leaves, file t.coord.path = some t.toBytes) :
    ∃ proof, serveInclusion H file (UInt64.ofNat leaves.length) index =
        some (leaves[index.toNat], proof) ∧
      InclusionProof.generate (⟨leaves⟩ : MerkleTree H) index = .ok proof := by
  obtain ⟨plan, hplan, hleaf, hsteps⟩ := exists_plan (H := H) hlen hi
  have hinside : ∀ c ∈ plan.tiles, ∃ t ∈ buildTiles H leaves, t.coord = c := by
    intro c hc
    rw [TilePlan.tiles, mem_sortDedup, List.mem_cons, List.mem_flatMap] at hc
    obtain rfl | ⟨step, hstep, hc⟩ := hc
    · obtain ⟨t, ht, hcoord, -⟩ := hleaf.inside
      exact ⟨t, ht, hcoord⟩
    · obtain ⟨run, hrun, rfl⟩ := List.mem_map.mp hc
      obtain ⟨r, -, hblocks, -⟩ := Outcome.exists_of_mem_right hsteps hstep
      obtain ⟨t, ht, hcoord, -⟩ := hblocks run hrun
      exact ⟨t, ht, hcoord⟩
  have hfetch : ∀ c ∈ plan.tiles, ∃ t, (buildTiles H leaves).find? (fun t => t.coord = c) = some t ∧
      fetchTile file c = some t := by
    intro c hc
    obtain ⟨u, hu, hcoord⟩ := hinside c hc
    obtain ⟨t, ht⟩ := Option.isSome_iff_exists.mp (List.find?_isSome.mpr
      ⟨u, hu, by simpa using hcoord⟩ : ((buildTiles H leaves).find? (fun t => t.coord = c)).isSome)
    have htcoord : t.coord = c := by simpa using List.find?_some ht
    refine ⟨t, ht, ?_⟩
    rw [fetchTile, ← htcoord, hfile t (List.mem_of_find?_eq_some ht)]
    simp [Tile.fromBytes_eq_ok_iff.mpr ⟨rfl, rfl⟩, Except.toOption]
  obtain ⟨ts, hts, hfind⟩ := mapM_fetchTile hfetch
  have hleafHash : blockHash H ts plan.leaf = some leaves[index.toNat] := by
    have halike : FindAlike ts (buildTiles H leaves) [plan.leaf] := by
      intro run hrun
      rw [List.mem_singleton.mp hrun]
      exact hfind _ (mem_sortDedup.mpr (List.mem_cons_self ..))
    rw [halike.blockHash_eq (List.mem_singleton_self _), hleaf.hash_eq, mth_extract_succ H hi,
      List.getElem?_eq_getElem hi]
  have hpath : assemblePath H ts plan = some ((siblingRanges 0 leaves.length index.toNat []).map
      (fun r => mth H (leaves.extract r.1 r.2))) := by
    refine mapM_siblingHash_eq (List.forall₂_iff_get.mpr ⟨hsteps.length_eq, ?_⟩)
    intro k hk hk'
    have halike : FindAlike ts (buildTiles H leaves) (plan.steps.get ⟨k, hk'⟩).blocks := by
      intro run hrun
      refine hfind _ (mem_sortDedup.mpr (List.mem_cons_of_mem _ ?_))
      exact List.mem_flatMap.mpr ⟨_, List.get_mem _ _, List.mem_map_of_mem hrun⟩
    rw [halike.siblingHash_eq]
    exact ((List.forall₂_iff_get.mp hsteps).2 k hk hk').2
  refine ⟨_, ?_, generate_eq_ranges hi⟩
  rw [serveInclusion, hplan]
  simp only [Except.toOption, Option.bind_eq_bind, Option.bind_some, hts, hleafHash, hpath]

/-- A generated proof is accepted for its leaf and the root of its tree. -/
theorem verify_of_generate {proof : InclusionProof} (hlen : leaves.length < 2 ^ 64)
    (hi : index.toNat < leaves.length)
    (h : InclusionProof.generate (⟨leaves⟩ : MerkleTree H) index = .ok proof) :
    proof.verify H leaves[index.toNat] (mth H leaves) = .ok () := by
  have hsize : (UInt64.ofNat leaves.length).toNat = leaves.length :=
    UInt64.toNat_ofNat_of_lt' hlen
  rw [InclusionProof.generate_eq hi] at h
  cases h
  rw [InclusionProof.verify_eq_ok_iff]
  simp only [hsize]
  exact ⟨hi, (inclusionPathLen_eq (f := hashNode H) hi).symm,
    InclusionProof.verifyLoop_siblings (by omega) (by omega) (List.getElem?_eq_getElem hi)⟩

/-- Files that hold the tiles of one size serve the proofs of that size. -/
theorem exists_served {treeSize : TreeSize} (hlen : leaves.length < 2 ^ 64)
    (hsize : treeSize.toNat ≤ leaves.length)
    (hfile : ∀ t ∈ buildTiles H (leaves.take treeSize.toNat),
      file t.coord.path = some t.toBytes) (hi : index.toNat < treeSize.toNat) :
    ∃ leaf proof, serveInclusion H file treeSize index = some (leaf, proof) ∧
      leaves[index.toNat]? = some leaf ∧ proof.treeSize = treeSize ∧ proof.leafIndex = index ∧
      InclusionProof.generate (⟨leaves.take treeSize.toNat⟩ : MerkleTree H) index = .ok proof ∧
      proof.verify H leaf (mth H (leaves.take treeSize.toNat)) = .ok () := by
  have htake : (leaves.take treeSize.toNat).length = treeSize.toNat :=
    List.length_take_of_le hsize
  have hi' : index.toNat < (leaves.take treeSize.toNat).length := by omega
  obtain ⟨proof, hserve, hgen⟩ := serveInclusion_eq (by omega) hi' hfile
  have hproof := verify_of_generate (by omega) hi' hgen
  have hshape := hgen
  rw [InclusionProof.generate_eq hi', htake, UInt64.ofNat_toNat, Except.ok.injEq] at hshape
  rw [htake, UInt64.ofNat_toNat] at hserve
  refine ⟨_, proof, hserve, ?_, by rw [← hshape], by rw [← hshape], hgen, hproof⟩
  rw [List.getElem_take]
  exact List.getElem?_eq_getElem (by omega)

/-- A file keeps what all its writes agree on. -/
theorem get?_ofList_of_agree {writes : List (String × List UInt8)} {path : String}
    {bytes : List UInt8} (hmem : (path, bytes) ∈ writes)
    (hall : ∀ w ∈ writes, w.1 = path → w.2 = bytes) :
    (FiniteMap.ofList writes).get? path = some bytes := by
  suffices h : ∀ m : FiniteMap String (List UInt8),
      (writes.foldl (fun m p => m.insert p.1 p.2) m).get? path = some bytes from h _
  induction writes with
  | nil => cases hmem
  | cons w writes ih =>
    intro m
    rw [List.foldl_cons]
    by_cases hlater : (path, bytes) ∈ writes
    · exact ih hlater (fun w' hw' => hall w' (List.mem_cons_of_mem _ hw')) _
    · have hnone : path ∉ writes.map Prod.fst := by
        intro hin
        obtain ⟨w', hw', hpath⟩ := List.mem_map.mp hin
        have hbytes := hall w' (List.mem_cons_of_mem _ hw') hpath
        exact hlater (hpath ▸ hbytes ▸ hw')
      obtain rfl := (List.mem_cons.mp hmem).resolve_right hlater
      rw [FiniteMap.get?_foldl_insert_of_notMem hnone, FiniteMap.get?_insert_self]

/-- Written at any sizes of one log, the files hold the tiles of each size written whole. -/
theorem get?_of_writes {size : ℕ} {writes : List (String × List UInt8)}
    (hlen : leaves.length < 2 ^ 64)
    (hwrites : ∀ w ∈ writes, ∃ m, ∃ t ∈ buildTiles H (leaves.take m),
      w = (t.coord.path, t.toBytes))
    (hall : ∀ t ∈ buildTiles H (leaves.take size), (t.coord.path, t.toBytes) ∈ writes) :
    ∀ t ∈ buildTiles H (leaves.take size),
      (FiniteMap.ofList writes).get? t.coord.path = some t.toBytes := by
  intro t ht
  refine get?_ofList_of_agree (hall t ht) ?_
  intro w hw hpath
  obtain ⟨m, u, hu, rfl⟩ := hwrites w hw
  exact congrArg Tile.toBytes (Tile.eq_of_path hlen hu ht hpath)

/-- Serving from files that were written at any sizes of one log, in any order and any number of
times: once the files of a size have been written, every inclusion proof of that size is served
from files alone, is the proof the tree would generate, and is accepted. -/
theorem written_tiles_serve (leaves : List HashOutput) (hlen : leaves.length < 2 ^ 64)
    (writes : List (String × List UInt8))
    (hwrites : ∀ w ∈ writes, ∃ m, ∃ t ∈ buildTiles H (leaves.take m),
      w = (t.coord.path, t.toBytes))
    (treeSize : TreeSize) (hsize : treeSize.toNat ≤ leaves.length)
    (hall : ∀ t ∈ buildTiles H (leaves.take treeSize.toNat), (t.coord.path, t.toBytes) ∈ writes)
    (index : Index) (hi : index.toNat < treeSize.toNat) :
    ∃ leaf proof,
      serveInclusion H (FiniteMap.ofList writes).get? treeSize index = some (leaf, proof) ∧
      leaves[index.toNat]? = some leaf ∧
      InclusionProof.generate (⟨leaves.take treeSize.toNat⟩ : MerkleTree H) index = .ok proof ∧
      proof.verify H leaf (mth H (leaves.take treeSize.toNat)) = .ok () := by
  obtain ⟨leaf, proof, hserve, hleaf, -, -, hgen, hproof⟩ :=
    exists_served hlen hsize (get?_of_writes hlen hwrites hall) hi
  exact ⟨leaf, proof, hserve, hleaf, hgen, hproof⟩

/-- The files of two and of three leaves, written one after the other, serve the second leaf. -/
theorem written_tiles_serve_second :
    ∃ leaf proof, serveInclusion residueHasher (FiniteMap.ofList
        ((buildTiles residueHasher (InclusionProof.sampleLeaves.take 2) ++
          buildTiles residueHasher (InclusionProof.sampleLeaves.take 3)).map
            (fun t => (t.coord.path, t.toBytes)))).get? 2 1 = some (leaf, proof) ∧
      InclusionProof.sampleLeaves[1]? = some leaf ∧
      proof.verify residueHasher leaf (mth residueHasher (InclusionProof.sampleLeaves.take 2)) =
        .ok () := by
  obtain ⟨leaf, proof, hserve, hleaf, -, hverify⟩ := written_tiles_serve (H := residueHasher)
    InclusionProof.sampleLeaves (by decide)
    ((buildTiles residueHasher (InclusionProof.sampleLeaves.take 2) ++
      buildTiles residueHasher (InclusionProof.sampleLeaves.take 3)).map
        (fun t => (t.coord.path, t.toBytes)))
    (fun w hw => by
      obtain ⟨t, ht, rfl⟩ := List.mem_map.mp hw
      obtain ht | ht := List.mem_append.mp ht
      · exact ⟨2, t, ht, rfl⟩
      · exact ⟨3, t, ht, rfl⟩) 2 (by decide)
    (fun t ht => List.mem_map_of_mem (List.mem_append_left _ ht)) 1 (by decide)
  exact ⟨leaf, proof, hserve, hleaf, hverify⟩

end Mtc
