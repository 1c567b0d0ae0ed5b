import MtcCa.Lib.MerkleBinding
import MtcCa.Lib.Slices
import MtcCa.Tree.Digest

/-! The in-memory issuance-log tree: append, root and subtree hashing
(`crates/mtc/src/tree/builder.rs`, `crates/mtc/src/leaf.rs`). -/
namespace Mtc

/-- The largest power of two strictly less than `n`, for `n ≥ 2`. -/
def splitPoint (n : ℕ) : ℕ := 1 <<< (n - 1).log2

theorem splitPoint_eq_split (n : ℕ) : splitPoint n = Merkle.split n := by
  rw [splitPoint, Nat.shiftLeft_eq, Nat.one_mul, Merkle.split]

variable (H : Hasher)

/-- The Merkle tree hash of a slice of leaf hashes. -/
def mth (leaves : List HashOutput) : HashOutput :=
  match leaves with
  | [] => emptyRoot H
  | [leaf] => leaf
  | l₀ :: l₁ :: rest =>
    let k := splitPoint (rest.length + 2)
    hashNode H (mth ((l₀ :: l₁ :: rest).take k)) (mth ((l₀ :: l₁ :: rest).drop k))
termination_by leaves.length
decreasing_by
  · have := Merkle.split_lt (n := rest.length + 2) (by omega)
    simp only [splitPoint_eq_split, List.length_take, List.length_cons]
    omega
  · have := Merkle.split_pos (rest.length + 2)
    simp only [splitPoint_eq_split, List.length_drop, List.length_cons]
    omega

/-- The tree's hash recurrence is the generic Merkle root at `hashNode`. -/
theorem mth_eq_root (leaves : List HashOutput) :
    mth H leaves = Merkle.root (hashNode H) (emptyRoot H) leaves := by
  induction leaves using mth.induct with
  | case1 => rw [mth, Merkle.root]
  | case2 leaf => rw [mth, Merkle.root]
  | case3 l₀ l₁ rest k ihl ihr =>
    rw [mth, Merkle.root, ihl, ihr, ← splitPoint_eq_split]

/-- The tree hash of a single position is the leaf there. -/
theorem mth_extract_succ {leaves : List HashOutput} {i : ℕ} (hi : i < leaves.length) :
    some (mth H (leaves.extract i (i + 1))) = leaves[i]? := by
  have hslice : leaves.extract i (i + 1) = [leaves[i]] := by
    rw [List.extract_eq_take_drop, Nat.add_sub_cancel_left, List.drop_eq_getElem_cons hi]
    rfl
  rw [hslice, mth, List.getElem?_eq_getElem hi]

/-- Every pair of hashes that `mth` passes to `hashNode`. -/
def mthPairs (leaves : List HashOutput) : List (HashOutput × HashOutput) :=
  Merkle.nodePairs (hashNode H) (emptyRoot H) leaves

/-- The framed preimage of one leaf: a serialized log entry. -/
structure LeafBytes where
  bytes : List UInt8
deriving DecidableEq

/-- The append-only tree over log entries, for one hash function; its leaf hashes
are its whole state. -/
structure MerkleTree (H : Hasher) where
  leaves : List HashOutput

namespace MerkleTree

variable {H} (tree : MerkleTree H)

def new : MerkleTree H := ⟨[]⟩

/-- The number of entries appended so far. -/
def len : ℕ := tree.leaves.length

/-- Appends one leaf, returning the index it was assigned. -/
def append (leaf : LeafBytes) : ℕ × MerkleTree H :=
  (tree.leaves.length, ⟨tree.leaves ++ [hashLeaf H leaf.bytes]⟩)

def leafHash (index : ℕ) : Option HashOutput := tree.leaves[index]?

def root : HashOutput := mth H tree.leaves

/-- The Merkle tree hash over `[start, stop)`, absent for an empty or out-of-range span. -/
def subtreeHash (start stop : ℕ) : Option HashOutput :=
  if start ≥ stop ∨ stop > tree.leaves.length then none
  else some (mth H (tree.leaves.extract start stop))

/-- Appends a sequence of leaves, one call each. -/
def appendAll (leaves : List LeafBytes) : MerkleTree H :=
  leaves.foldl (fun t leaf => (t.append leaf).2) tree

theorem appendAll_leaves (leaves : List LeafBytes) :
    (tree.appendAll leaves).leaves = tree.leaves ++ leaves.map (fun l => hashLeaf H l.bytes) := by
  induction leaves generalizing tree with
  | nil => simp [appendAll]
  | cons leaf rest ih =>
    rw [appendAll, List.foldl_cons, ← appendAll, ih]
    simp [append]

theorem subtreeHash_of_le {s e : ℕ} (hse : s < e) (he : e ≤ tree.leaves.length) :
    tree.subtreeHash s e = some (mth H (tree.leaves.extract s e)) := by
  rw [subtreeHash, if_neg (by omega)]

/-- Later appends do not change the hash of an existing span. -/
theorem subtreeHash_appendAll {s e : ℕ} (he : e ≤ tree.leaves.length) (leaves : List LeafBytes) :
    (tree.appendAll leaves).subtreeHash s e = tree.subtreeHash s e := by
  unfold subtreeHash
  rw [appendAll_leaves, Slices.extract_append he, List.length_append]
  by_cases hs : s ≥ e
  · rw [if_pos (Or.inl hs), if_pos (Or.inl hs)]
  · rw [if_neg (by omega), if_neg (by omega)]

end MerkleTree

end Mtc
