import MtcCa.Lib.Decimal
import MtcCa.Tile.Coord

/-! The path of a tile (`crates/mtc/src/tile/coord.rs`), and a reader that recovers the coordinate
from it. -/
namespace Mtc

open Decimal

/-- Fewer hashes than a full tile holds. -/
def TileWidth.isPartial (w : TileWidth) : Bool := w.get ≠ fullTileHashes

/-- The loop of `encode_index`: the base-1000 digits, the least significant first. -/
def indexGroups (n : ℕ) : List ℕ :=
  if n / 1000 = 0 then [n % 1000] else n % 1000 :: indexGroups (n / 1000)
termination_by n
decreasing_by omega

/-- Three-digit groups, the most significant first, all but the last marked with an `x`. -/
def encodeIndex (n : ℕ) : String :=
  let groups := (indexGroups n).reverse
  let last := groups.length - 1
  "/".intercalate (groups.zipIdx.map (fun (group, i) =>
    if i = last then String.ofList (padded 3 group) else "x" ++ String.ofList (padded 3 group)))

namespace TileCoord

def path (c : TileCoord) : String :=
  let index := encodeIndex c.index
  if c.width.isPartial then
    "tile/" ++ toString c.level ++ "/" ++ index ++ ".p/" ++ toString c.width.get
  else "tile/" ++ toString c.level ++ "/" ++ index

/-- Reads the groups of an index, and the width that may follow the last one. -/
def readIndex (high : ℕ) : List (List Char) → Option (ℕ × ℕ)
  | [] => none
  | ('x' :: group) :: rest => do
    let low ← read group
    readIndex (high * 1000 + low) rest
  | [last] => do
    let low ← read last
    some (high * 1000 + low, fullTileHashes)
  | [last, width] =>
    if last.drop 3 = ['.', 'p'] then do
      let low ← read (last.take 3)
      let width ← read width
      some (high * 1000 + low, width)
    else none
  | _ => none

/-- Reads a path, part by part. -/
def readPath (s : String) : Option TileCoord :=
  match s.toList.splitOn '/' with
  | ['t', 'i', 'l', 'e'] :: level :: rest => do
    let level ← read level
    let (index, width) ← readIndex 0 rest
    let width ← TileWidth.new width
    some ⟨level, index, width⟩
  | _ => none

end TileCoord

variable {n g high : ℕ} {gs : List ℕ}

theorem indexGroups_ne_nil (n : ℕ) : indexGroups n ≠ [] := by
  rw [indexGroups]
  split <;> exact List.cons_ne_nil _ _

theorem lt_of_mem_indexGroups (h : g ∈ indexGroups n) : g < 1000 := by
  induction hn : n using Nat.strong_induction_on generalizing n with
  | _ m ih =>
    subst hn
    rw [indexGroups] at h
    split at h
    · rw [List.mem_singleton.mp h]
      exact Nat.mod_lt _ (by omega)
    · rcases List.mem_cons.mp h with rfl | h
      · exact Nat.mod_lt _ (by omega)
      · exact ih (n / 1000) (by omega) h rfl

/-- The groups are the base-1000 digits of the index. -/
theorem foldr_indexGroups (n : ℕ) :
    (indexGroups n).foldr (fun low high => high * 1000 + low) 0 = n := by
  induction n using Nat.strong_induction_on with
  | _ n ih =>
    rw [indexGroups]
    split
    · simp only [List.foldr_cons, List.foldr_nil]
      omega
    · rw [List.foldr_cons, ih (n / 1000) (by omega)]
      omega

/-- The parts of an index's path: all groups but the last are marked, and the last one ends it. -/
def groupParts (ending : List Char → List (List Char)) : List ℕ → List (List Char)
  | [] => []
  | [last] => ending (padded 3 last)
  | group :: rest => ('x' :: padded 3 group) :: groupParts ending rest

theorem groupParts_cons {ending : List Char → List (List Char)} (g : ℕ) (hgs : gs ≠ []) :
    groupParts ending (g :: gs) = ('x' :: padded 3 g) :: groupParts ending gs := by
  obtain ⟨g', rest, rfl⟩ := List.exists_cons_of_ne_nil hgs
  rfl

theorem map_zipIdx_groups (k : ℕ) (hgs : gs ≠ []) :
    ((gs.zipIdx k).map (fun (group, i) =>
      if i = k + (gs.length - 1) then String.ofList (padded 3 group)
      else "x" ++ String.ofList (padded 3 group))).map String.toList =
    groupParts (fun last => [last]) gs := by
  induction gs generalizing k with
  | nil => exact absurd rfl hgs
  | cons g gs ih =>
    by_cases hnil : gs = []
    · subst hnil
      simp [groupParts]
    · have hpos := List.length_pos_iff.mpr hnil
      have hlast : k + ((g :: gs).length - 1) = k + 1 + (gs.length - 1) := by
        rw [List.length_cons]
        omega
      rw [groupParts_cons g hnil, ← ih (k + 1) hnil, List.zipIdx_cons, List.map_cons, List.map_cons,
        hlast]
      dsimp only
      rw [if_neg (by omega)]
      simp

theorem toList_encodeIndex (n : ℕ) : (encodeIndex n).toList =
    ['/'].intercalate (groupParts (fun last => [last]) (indexGroups n).reverse) := by
  have hne : (indexGroups n).reverse ≠ [] := by
    rw [ne_eq, List.reverse_eq_nil_iff]
    exact indexGroups_ne_nil n
  have h := map_zipIdx_groups 0 hne
  simp only [Nat.zero_add] at h
  rw [encodeIndex, String.toList_intercalate, h]
  rfl

namespace TileCoord

variable {c : TileCoord}

/-- How the last group ends a path: alone, or with the width of a partial tile. -/
def ending (w : TileWidth) (last : List Char) : List (List Char) :=
  if w.isPartial then [last ++ ['.', 'p'], padded 0 w.get] else [last]

/-- The parts of a path between its slashes. -/
def parts (c : TileCoord) : List (List Char) :=
  ['t', 'i', 'l', 'e'] :: padded 0 c.level ::
    groupParts (ending c.width) (indexGroups c.index).reverse

theorem ending_ne_nil (w : TileWidth) (last : List Char) : ending w last ≠ [] := by
  unfold ending
  split <;> exact List.cons_ne_nil _ _

theorem groupParts_ne_nil (w : TileWidth) (hgs : gs ≠ []) : groupParts (ending w) gs ≠ [] := by
  match gs, hgs with
  | [last], _ => exact ending_ne_nil w _
  | g :: g' :: rest, _ => exact List.cons_ne_nil _ _

theorem intercalate_groupParts (w : TileWidth) (hgs : gs ≠ []) :
    ['/'].intercalate (groupParts (ending w) gs) =
      ['/'].intercalate (groupParts (fun last => [last]) gs) ++
        if w.isPartial then ['.', 'p', '/'] ++ padded 0 w.get else [] := by
  induction gs with
  | nil => exact absurd rfl hgs
  | cons g gs ih =>
    by_cases hnil : gs = []
    · subst hnil
      rw [groupParts, groupParts, ending]
      split <;> simp
    · have hne : groupParts (fun last => [last]) gs ≠ [] := by
        match gs, hnil with
        | [last], _ => exact List.cons_ne_nil _ _
        | g :: g' :: rest, _ => exact List.cons_ne_nil _ _
      rw [groupParts_cons g hnil, groupParts_cons g hnil,
        List.intercalate_cons_of_ne_nil (groupParts_ne_nil w hnil),
        List.intercalate_cons_of_ne_nil hne, ih hnil, List.append_assoc, List.append_assoc,
        List.append_assoc]

theorem toList_toString (n : ℕ) : (toString n).toList = padded 0 n := by
  rw [padded_zero]
  exact Nat.toList_repr

/-- A path is its parts, joined by slashes. -/
theorem toList_path (c : TileCoord) : c.path.toList = ['/'].intercalate c.parts := by
  have hne : (indexGroups c.index).reverse ≠ [] := by
    rw [ne_eq, List.reverse_eq_nil_iff]
    exact indexGroups_ne_nil c.index
  rw [parts, List.intercalate_cons_cons,
    List.intercalate_cons_of_ne_nil (groupParts_ne_nil c.width hne),
    intercalate_groupParts c.width hne, ← toList_encodeIndex, ← toList_toString, path]
  split
  · simp [← toList_toString]
  · simp

theorem slash_notMem_groupParts (w : TileWidth) (gs : List ℕ) :
    ∀ part ∈ groupParts (ending w) gs, '/' ∉ part := by
  have hdigits : ∀ k m : ℕ, '/' ∉ padded k m := fun k m => notMem_padded rfl
  induction gs with
  | nil =>
    intro part hpart
    cases hpart
  | cons g gs ih =>
    by_cases hnil : gs = []
    · subst hnil
      intro part hpart
      rw [groupParts, ending] at hpart
      split at hpart
      · rcases List.mem_cons.mp hpart with rfl | hpart
        · simp [hdigits 3 g]
        · rw [List.mem_singleton.mp hpart]
          exact hdigits _ _
      · rw [List.mem_singleton.mp hpart]
        exact hdigits _ _
    · rw [groupParts_cons g hnil]
      intro part hpart
      rcases List.mem_cons.mp hpart with rfl | hpart
      · simp [hdigits 3 g]
      · exact ih part hpart

theorem splitOn_path (c : TileCoord) : c.path.toList.splitOn '/' = c.parts := by
  rw [toList_path]
  refine List.splitOn_intercalate '/' ?_ (List.cons_ne_nil _ _)
  intro part hpart
  rcases List.mem_cons.mp hpart with rfl | hpart
  · decide
  · rcases List.mem_cons.mp hpart with rfl | hpart
    · exact notMem_padded rfl
    · exact slash_notMem_groupParts c.width _ part hpart

/-- The last group gives the low digits, and the width if the tile is partial. -/
theorem readIndex_ending (w : TileWidth) (hg : g < 1000) :
    readIndex high (ending w (padded 3 g)) = some (high * 1000 + g, w.get) := by
  have hlen := length_padded (w := 3) (n := g) (by decide) hg
  obtain ⟨d, ds, hd⟩ := List.exists_cons_of_ne_nil (padded_ne_nil 3 g)
  have hx : d ≠ 'x' := by
    rintro rfl
    exact notMem_padded (c := 'x') rfl (hd ▸ List.mem_cons_self)
  have hread := read_padded 3 g
  unfold ending
  split
  · have hdrop : (padded 3 g ++ ['.', 'p']).drop 3 = ['.', 'p'] :=
      List.drop_left' hlen
    have htake : (padded 3 g ++ ['.', 'p']).take 3 = padded 3 g :=
      List.take_left' hlen
    have hmatch : readIndex high [padded 3 g ++ ['.', 'p'], padded 0 w.get] =
        if (padded 3 g ++ ['.', 'p']).drop 3 = ['.', 'p'] then do
          let low ← read ((padded 3 g ++ ['.', 'p']).take 3)
          let width ← read (padded 0 w.get)
          some (high * 1000 + low, width)
        else none := by
      rw [hd, List.cons_append, readIndex]
      intro group hgroup
      exact hx (List.cons.inj hgroup).1
    rw [hmatch, if_pos hdrop, htake, hread, read_padded]
    rfl
  · next hfull =>
    have hwidth : w.get = fullTileHashes := by
      by_contra hne
      exact hfull (decide_eq_true hne)
    have hmatch : readIndex high [padded 3 g] = (do
        let low ← read (padded 3 g)
        some (high * 1000 + low, fullTileHashes)) := by
      rw [hd, readIndex]
      intro group hgroup
      exact hx (List.cons.inj hgroup).1
    rw [hmatch, hread, hwidth]
    rfl

/-- Reading the groups undoes writing them, whatever was read before. -/
theorem readIndex_groupParts (high : ℕ) (w : TileWidth) (hgs : gs ≠ []) (hlt : ∀ g ∈ gs, g < 1000) :
    readIndex high (groupParts (ending w) gs) =
      some (gs.foldl (fun high low => high * 1000 + low) high, w.get) := by
  induction gs generalizing high with
  | nil => exact absurd rfl hgs
  | cons g gs ih =>
    by_cases hnil : gs = []
    · subst hnil
      exact readIndex_ending w (hlt g List.mem_cons_self)
    · rw [groupParts_cons g hnil, readIndex, read_padded]
      exact ih _ hnil (fun g' hg' => hlt g' (List.mem_cons_of_mem _ hg'))

theorem readPath_path (c : TileCoord) : readPath c.path = some c := by
  have hne : (indexGroups c.index).reverse ≠ [] := by
    rw [ne_eq, List.reverse_eq_nil_iff]
    exact indexGroups_ne_nil c.index
  have hindex := readIndex_groupParts 0 c.width hne
    (fun g hg => lt_of_mem_indexGroups (List.mem_reverse.mp hg))
  rw [List.foldl_reverse, foldr_indexGroups] at hindex
  rw [readPath, splitOn_path, parts]
  simp only [read_padded, hindex, Option.bind_eq_bind, Option.bind_some,
    TileWidth.new_eq_some c.width.pos c.width.le_full]

/-- Over all levels, indices and widths, a path gives back its coordinate, so no two coordinates
share one. -/
theorem path_decodable :
    (∀ c : TileCoord, readPath c.path = some c) ∧ Function.Injective path := by
  refine ⟨readPath_path, ?_⟩
  intro c c' h
  have hread := readPath_path c
  rw [h, readPath_path c'] at hread
  exact (Option.some.inj hread).symm

/-- The documented examples of a partial tile and of three groups. -/
example : path ⟨0, 1, ⟨5, by decide, by decide⟩⟩ = "tile/0/001.p/5" ∧
    path ⟨1, 1234067, ⟨256, by decide, by decide⟩⟩ = "tile/1/x001/x234/067" := by
  decide +kernel

end TileCoord

end Mtc
