import MtcCa.Proof.InclusionCorrect
import MtcCa.Tile.Coord

/-! Tiles of a tree: building them from the leaf hashes and reading the root back from
the level-0 tiles (`crates/mtc/src/tile/mod.rs`). -/
namespace Mtc

/-- A tile holds as many hashes as its coordinate's width says. -/
structure Tile where
  coord : TileCoord
  hashes : List HashOutput
  length_hashes : hashes.length = coord.width.get
deriving DecidableEq

variable (H : Hasher)

/-- The recurrence of `mth`, which the source repeats for slices of subtree roots. -/
def combineSubtreeRoots (hashes : List HashOutput) : HashOutput := mth H hashes

/-- `usize::try_from`, with its fallback. -/
def usizeOrMax (x : ℕ) : ℕ := if x < 2 ^ 64 then x else 2 ^ 64 - 1

/-- `leaves.get(start..stop)`, the empty slice where the range is not valid. -/
def sliceOrEmpty (leaves : List HashOutput) (start stop : ℕ) : List HashOutput :=
  if start ≤ stop ∧ stop ≤ leaves.length then leaves.extract start stop else []

/-- The hash of the complete subtree under the level's hash at `hashIndex`. -/
def subtreeRoot (leaves : List HashOutput) (level hashIndex : ℕ) : HashOutput :=
  let span := 1 <<< (tileHeight * level)
  let start := usizeOrMax (hashIndex * span)
  let stop := usizeOrMax ((hashIndex + 1) * span)
  combineSubtreeRoots H (sliceOrEmpty leaves start stop)

/-- The tile at position `tileN` of a level that stores `count` hashes. -/
def buildTile (leaves : List HashOutput) (level count tileN : ℕ) : Option Tile :=
  let base := tileN * fullTileHashes
  let width := min (count - base) fullTileHashes
  if h : width ≥ 1 ∧ width ≤ fullTileHashes then
    some {
      coord := ⟨level, tileN, ⟨width, h.1, h.2⟩⟩
      hashes := (List.range width).map (fun slot => subtreeRoot H leaves level (base + slot))
      length_hashes := by rw [List.length_map, List.length_range] }
  else none

/-- The tiles of one level, left to right. -/
def buildLevel (leaves : List HashOutput) (level count : ℕ) : List Tile :=
  (List.range ((count + fullTileHashes - 1) / fullTileHashes)).filterMap
    (buildTile H leaves level count)

/-- The loop over levels: it stops above the level that stores a single hash. -/
def buildTilesFrom (leaves : List HashOutput) (treeSize : TreeSize) (level : ℕ) : List Tile :=
  let count := hashesAtLevel treeSize level
  if count = 0 then []
  else
    buildLevel H leaves level count ++
      if count = 1 then [] else buildTilesFrom leaves treeSize (level + 1)
termination_by hashesAtLevel treeSize level
decreasing_by
  rw [hashesAtLevel_succ]
  omega

/-- The complete tile set of a tree, in level-then-index order. -/
def buildTiles (leaves : List HashOutput) : List Tile :=
  buildTilesFrom H leaves (UInt64.ofNat leaves.length) 0

/-- The hashes of contiguous level-0 tiles, absent at a gap or a duplicate. -/
def coverFrom (expected : ℕ) (leaves : List HashOutput) : List Tile → Option (List HashOutput)
  | [] => some leaves
  | tile :: rest =>
    if tile.coord.index ≠ expected then none
    else coverFrom (expected + 1) (leaves ++ tile.hashes) rest

/-- The level-0 tiles of a tile set, sorted by index. -/
def level0 (tiles : List Tile) : List Tile :=
  (tiles.filter (fun t => t.coord.level = 0)).mergeSort (fun a b => a.coord.index ≤ b.coord.index)

/-- The root recovered from the level-0 tiles of a tile set. -/
def reconstructRoot (tiles : List Tile) : Option HashOutput :=
  if (level0 tiles).isEmpty then none
  else do
    let leaves ← coverFrom 0 [] (level0 tiles)
    some (combineSubtreeRoots H leaves)

end Mtc
