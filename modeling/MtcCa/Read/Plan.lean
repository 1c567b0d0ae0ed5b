import MtcCa.Lib.Outcome
import MtcCa.Tile.Build

/-! The read-path tile planner (`crates/mtc-read/src/lib.rs`): which tiles and which hash
slots within them an inclusion proof needs. -/
namespace Mtc

/-- A run of consecutive hash slots of one tile, standing for one complete subtree. -/
structure TileSlotRun where
  coord : TileCoord
  slot : ℕ
  len : ℕ
deriving DecidableEq

/-- One sibling of the path: the blocks whose right-leaning combination it is. -/
structure PathStep where
  blocks : List TileSlotRun
deriving DecidableEq

/-- The reads that assemble the inclusion proof of one leaf. -/
structure TilePlan where
  treeSize : TreeSize
  leafIndex : Index
  leaf : TileSlotRun
  steps : List PathStep
deriving DecidableEq

/-- The tiles to fetch: the leaf's and every step's, each once and in order. -/
def TilePlan.tiles (plan : TilePlan) : List TileCoord :=
  sortDedup (plan.leaf.coord :: plan.steps.flatMap (fun step => step.blocks.map TileSlotRun.coord))

inductive PlanError where
  | indexOutOfRange (index treeSize : ℕ)
  | tileGeometry (level index : ℕ)
deriving DecidableEq

/-- Appends the sibling ranges of `index` within `[start, stop)`, leaf to root. -/
def siblingRanges (start stop index : ℕ) (out : List (ℕ × ℕ)) : List (ℕ × ℕ) :=
  if stop - start ≤ 1 then out
  else
    let k := start + largestPowerOfTwoBelow (stop - start)
    if index < k then siblingRanges start k index out ++ [(k, stop)]
    else siblingRanges k stop index out ++ [(start, k)]
termination_by stop - start
decreasing_by
  all_goals
    have := Merkle.split_lt (n := stop - start) (by omega)
    have := Merkle.split_pos (stop - start)
    rw [largestPowerOfTwoBelow_eq_split]
    omega

/-- Maps a complete aligned subtree to the slots that hold its hashes. The conversions to
`u8` and `u16` are the bounds checked here. -/
def blockToSlotRun (start blockLen : ℕ) (treeSize : TreeSize) : Except PlanError TileSlotRun :=
  let kappa := trailingZeros blockLen
  let height := tileHeight
  let level := kappa / height
  if level ≥ 2 ^ 8 then .error (.tileGeometry (2 ^ 8 - 1) start)
  else
    let levelShift := height * level
    let tileShift := height * (level + 1)
    let hashIndex := start >>> levelShift
    let tileIndex := if tileShift ≥ 64 then 0 else start >>> tileShift
    let slot := hashIndex &&& (fullTileHashes - 1)
    if slot ≥ 2 ^ 16 then .error (.tileGeometry level tileIndex)
    else
      let len := 1 <<< (kappa - levelShift)
      match tileWidth level tileIndex treeSize with
      | none => .error (.tileGeometry level tileIndex)
      | some width => .ok { coord := ⟨level, tileIndex, width⟩, slot := slot, len := len }

/-- The blocks of one sibling range. -/
def planStep (treeSize : TreeSize) (range : ℕ × ℕ) : Except PlanError PathStep := do
  let blocks ← (decomposeRange range.1 range.2).mapM
    (fun block => blockToSlotRun block.start block.len treeSize)
  .ok { blocks := blocks }

/-- Plans the tile reads for the inclusion proof of `index`. -/
def planInclusion (treeSize : TreeSize) (index : Index) : Except PlanError TilePlan :=
  let i := index.toNat
  let n := treeSize.toNat
  if i ≥ n then .error (.indexOutOfRange i n)
  else do
    let leaf ← blockToSlotRun i 1 treeSize
    let steps ← (siblingRanges 0 n i []).mapM (planStep treeSize)
    .ok { treeSize := treeSize, leafIndex := index, leaf := leaf, steps := steps }

/-- The run lies within a tile of the set, at the coordinate it names. -/
def TileSlotRun.Inside (tiles : List Tile) (run : TileSlotRun) : Prop :=
  ∃ t ∈ tiles, t.coord = run.coord ∧ run.slot + run.len ≤ t.coord.width.get

section assemble

variable (H : Hasher)

/-- The root of one block: the balanced Merkle hash of its run, read from a tile set. -/
def blockHash (tiles : List Tile) (run : TileSlotRun) : Option HashOutput := do
  let tile ← tiles.find? (fun t => t.coord = run.coord)
  if run.slot + run.len ≤ tile.hashes.length then
    some (combineSubtreeRoots H (tile.hashes.extract run.slot (run.slot + run.len)))
  else none

/-- The right-leaning combination of the block roots. -/
def siblingHash (tiles : List Tile) : List TileSlotRun → Option HashOutput
  | [] => none
  | [block] => blockHash H tiles block
  | block :: rest => do
    let left ← blockHash H tiles block
    let right ← siblingHash tiles rest
    some (hashNode H left right)

/-- The audit path assembled from a plan and a tile set. -/
def assemblePath (tiles : List Tile) (plan : TilePlan) : Option (List HashOutput) :=
  plan.steps.mapM (fun step => siblingHash H tiles step.blocks)

end assemble

end Mtc
