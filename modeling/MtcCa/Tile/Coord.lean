import MtcCa.Tree.Decomposition

/-! Tile coordinates and geometry (`crates/mtc/src/tile/coord.rs`,
`crates/mtc/src/tile/mod.rs`). Levels are `u8` and
tile indices `u64` in the source; both are naturals here, and the level bound the
source checks is checked here. -/
namespace Mtc

/-- The tile height: a full tile is `2 ^ tileHeight` hashes wide. -/
def tileHeight : ℕ := 8

def fullTileHashes : ℕ := 1 <<< tileHeight

/-- The number of leaves under one hash at a tile level. -/
def leafSpan (level : ℕ) : ℕ := 1 <<< (tileHeight * level)

/-- The largest tile level of a tree whose size is a `u64`. -/
def maxLevel : ℕ := 8

/-- The number of complete subtrees of `256 ^ level` leaves. -/
def hashesAtLevel (treeSize : TreeSize) (level : ℕ) : ℕ :=
  if level > maxLevel then 0 else treeSize.toNat / leafSpan level

/-- The number of hashes a tile holds, always between 1 and 256. -/
@[ext] structure TileWidth where
  get : ℕ
  pos : 1 ≤ get
  le_full : get ≤ fullTileHashes
deriving DecidableEq

def TileWidth.new (width : ℕ) : Option TileWidth :=
  if h : width ≥ 1 ∧ width ≤ fullTileHashes then some ⟨width, h.1, h.2⟩ else none

/-- The full address of a tile. -/
structure TileCoord where
  level : ℕ
  index : ℕ
  width : TileWidth
deriving DecidableEq

/-- The width of the tile at `(level, index)`, if that tile holds any hash. -/
def tileWidth (level index : ℕ) (treeSize : TreeSize) : Option TileWidth :=
  let count := hashesAtLevel treeSize level
  let base := index * fullTileHashes
  if base ≥ 2 ^ 64 then none
  else if base ≥ count then none
  else
    let available := count - base
    TileWidth.new (min available fullTileHashes)

inductive TileError where
  | leafOutOfRange (leaf treeSize : ℕ)
  | widthOutOfRange (width : ℕ)
deriving DecidableEq

/-- The derived order of coordinates: level, then index, then width. -/
def TileCoord.Le (a b : TileCoord) : Prop :=
  a.level < b.level ∨ a.level = b.level ∧
    (a.index < b.index ∨ a.index = b.index ∧ a.width.get ≤ b.width.get)

instance : DecidableRel TileCoord.Le :=
  fun _ _ => inferInstanceAs (Decidable (_ ∨ _ ∧ (_ ∨ _ ∧ _)))

/-- The coordinates in ascending order, equal neighbours removed. -/
def sortDedup (coords : List TileCoord) : List TileCoord :=
  (coords.insertionSort TileCoord.Le).destutter (· ≠ ·)

/-- The tile that holds the root of a complete aligned subtree, or can recompute it. -/
def tileForSubtree (block : Subtree) (treeSize : TreeSize) : Except TileError TileCoord :=
  let a := block.start
  let k := trailingZeros block.len
  let level := if k / tileHeight < 2 ^ 8 then k / tileHeight else maxLevel
  let shift := tileHeight * (level + 1)
  let tileIndex := if shift ≥ 64 then 0 else a >>> shift
  match tileWidth level tileIndex treeSize with
  | none => .error (.widthOutOfRange 0)
  | some width => .ok ⟨level, tileIndex, width⟩

/-- The tiles an inclusion proof of `leaf` reads. -/
def tilesForInclusion (leaf : Index) (treeSize : TreeSize) : Except TileError (List TileCoord) :=
  let i := leaf.toNat
  let n := treeSize.toNat
  if i ≥ n then .error (.leafOutOfRange i n)
  else do
    let ranges := [⟨i, i + 1⟩] ++ decomposeRange 0 i ++ decomposeRange (i + 1) n
    let coords ← ranges.mapM (fun block => tileForSubtree block treeSize)
    .ok (sortDedup coords)

@[simp] theorem fullTileHashes_eq : fullTileHashes = 256 := rfl

theorem leafSpan_eq (level : ℕ) : leafSpan level = 256 ^ level := by
  rw [leafSpan, Nat.one_shiftLeft, tileHeight, pow_mul]
  norm_num

theorem TileWidth.new_eq_some {w : ℕ} (h : 1 ≤ w) (h' : w ≤ 256) :
    TileWidth.new w = some ⟨w, h, h'⟩ := by
  rw [TileWidth.new, dif_pos ⟨h, h'⟩]

theorem mem_destutter'_ne {α : Type} [DecidableEq α] {x a : α} {l : List α} :
    x ∈ l.destutter' (· ≠ ·) a ↔ x = a ∨ x ∈ l := by
  induction l generalizing a with
  | nil => simp
  | cons b l ih =>
    by_cases h : a = b
    · subst h
      rw [List.destutter'_cons_neg _ (by simp), ih, List.mem_cons]
      tauto
    · rw [List.destutter'_cons_pos _ h, List.mem_cons, ih, List.mem_cons]

/-- Removing repetitions keeps every value. -/
theorem mem_destutter_ne {α : Type} [DecidableEq α] {x : α} {l : List α} :
    x ∈ l.destutter (· ≠ ·) ↔ x ∈ l := by
  cases l with
  | nil => simp
  | cons b l => rw [List.destutter_cons', mem_destutter'_ne, List.mem_cons]

theorem mem_sortDedup {c : TileCoord} {coords : List TileCoord} :
    c ∈ sortDedup coords ↔ c ∈ coords := by
  rw [sortDedup, mem_destutter_ne, List.mem_insertionSort]

section geometry

variable {n : TreeSize} {level index : ℕ}

theorem hashesAtLevel_eq (h : level ≤ 8) : hashesAtLevel n level = n.toNat / 256 ^ level := by
  rw [hashesAtLevel, if_neg (by rw [maxLevel]; omega), leafSpan_eq]

/-- A level beyond the last one of a 64-bit tree stores nothing, as the quotient would be. -/
theorem hashesAtLevel_eq_div (n : TreeSize) (level : ℕ) :
    hashesAtLevel n level = n.toNat / 256 ^ level := by
  by_cases h : level ≤ 8
  · exact hashesAtLevel_eq h
  · have hn := n.toNat_lt
    have hpow : 256 ^ 8 ≤ 256 ^ level := Nat.pow_le_pow_right (by omega) (by omega)
    rw [hashesAtLevel, if_pos (by rw [maxLevel]; omega), Nat.div_eq_of_lt]
    exact lt_of_lt_of_le hn hpow

theorem hashesAtLevel_succ (n : TreeSize) (level : ℕ) :
    hashesAtLevel n (level + 1) = hashesAtLevel n level / 256 := by
  rw [hashesAtLevel_eq_div, hashesAtLevel_eq_div, pow_succ, Nat.div_div_eq_div_mul]

theorem hashesAtLevel_zero (n : TreeSize) : hashesAtLevel n 0 = n.toNat := by
  simp [hashesAtLevel_eq_div]

theorem hashesAtLevel_antitone {level' : ℕ} (h : level ≤ level') :
    hashesAtLevel n level' ≤ hashesAtLevel n level := by
  rw [hashesAtLevel_eq_div, hashesAtLevel_eq_div]
  exact Nat.div_le_div_left (Nat.pow_le_pow_right (by omega) h) (Nat.pow_pos (by omega))

theorem hashesAtLevel_pos_iff : 0 < hashesAtLevel n level ↔ 256 ^ level ≤ n.toNat := by
  rw [hashesAtLevel_eq_div, Nat.div_pos_iff]
  have := Nat.pow_pos (n := level) (show 0 < 256 by omega)
  omega

theorem hashesAtLevel_lt (n : TreeSize) (level : ℕ) : hashesAtLevel n level < 2 ^ 64 := by
  rw [hashesAtLevel_eq_div]
  exact lt_of_le_of_lt (Nat.div_le_self _ _) n.toNat_lt

theorem hashesAtLevel_mul_le (n : TreeSize) (level : ℕ) :
    hashesAtLevel n level * 256 ^ level ≤ n.toNat := by
  rw [hashesAtLevel_eq_div]
  exact Nat.div_mul_le_self _ _

/-- A tile has a width exactly when its first hash is stored. -/
theorem tileWidth_eq_some (h : index * 256 < hashesAtLevel n level) :
    tileWidth level index n = some
      ⟨min (hashesAtLevel n level - index * 256) 256, by omega, Nat.min_le_right _ _⟩ := by
  have hlt := hashesAtLevel_lt n level
  rw [tileWidth, if_neg (by rw [fullTileHashes_eq]; omega),
    if_neg (by rw [fullTileHashes_eq]; omega)]
  exact TileWidth.new_eq_some _ _

end geometry

end Mtc
