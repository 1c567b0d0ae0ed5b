import MtcCa.Tree.Builder

/-! Inclusion proofs: generation, the length formula and verification
(`crates/mtc/src/proof.rs`, `crates/mtc/src/proof/inclusion.rs`). Sizes and
positions are `u64` in the source; the arithmetic below never leaves that range. -/
namespace Mtc

/-- Why a proof could not be generated or failed verification. -/
inductive ProofError where
  | indexOutOfRange (index treeSize : ℕ)
  | nonMonotonicSizes (oldSize newSize : ℕ)
  | treeTooSmall (requested available : ℕ)
  | malformedPath (expected actual : ℕ)
  | rootMismatch
deriving DecidableEq

/-- The largest power of two strictly less than `n`, for `n ≥ 2`. -/
def largestPowerOfTwoBelow (n : ℕ) : ℕ := 1 <<< (n - 1).log2

theorem largestPowerOfTwoBelow_eq_split (n : ℕ) : largestPowerOfTwoBelow n = Merkle.split n :=
  splitPoint_eq_split n

/-- A leaf's audit path to the root of a tree of a given size, leaf to root. -/
structure InclusionProof where
  treeSize : TreeSize
  leafIndex : Index
  auditPath : List HashOutput
deriving DecidableEq

/-- The loop of `inclusionPathLen` over the shrinking range `[start, stop)`. -/
def inclusionPathLenLoop (index start stop len : ℕ) : ℕ :=
  if stop - start > 1 then
    let k := start + largestPowerOfTwoBelow (stop - start)
    if index < k then inclusionPathLenLoop index start k (len + 1)
    else inclusionPathLenLoop index k stop (len + 1)
  else len
termination_by stop - start
decreasing_by
  all_goals
    have := Merkle.split_lt (n := stop - start) (by omega)
    have := Merkle.split_pos (stop - start)
    rw [largestPowerOfTwoBelow_eq_split]
    omega

/-- The number of siblings an inclusion proof for `index` in a tree of `size` contains. -/
def inclusionPathLen (index size : ℕ) : ℕ := inclusionPathLenLoop index 0 size 0

variable {H : Hasher}

/-- Appends the leaf-to-root sibling hashes for `index` within `[start, stop)` to
`out`. The source stops at a single leaf; the empty range, which no caller passes,
stops here too. -/
def collectSiblings (tree : MerkleTree H) (start stop index : ℕ) (out : List HashOutput) :
    Except ProofError (List HashOutput) :=
  if stop - start ≤ 1 then .ok out
  else
    let k := start + largestPowerOfTwoBelow (stop - start)
    if index < k then do
      let out ← collectSiblings tree start k index out
      let some sibling := tree.subtreeHash k stop | .error (.indexOutOfRange index stop)
      .ok (out ++ [sibling])
    else do
      let out ← collectSiblings tree k stop index out
      let some sibling := tree.subtreeHash start k | .error (.indexOutOfRange index stop)
      .ok (out ++ [sibling])
termination_by stop - start
decreasing_by
  all_goals
    have := Merkle.split_lt (n := stop - start) (by omega)
    have := Merkle.split_pos (stop - start)
    rw [largestPowerOfTwoBelow_eq_split]
    omega

/-- Drops the trailing zero bits of `fnn` from both positions. -/
def skipEven (fnn sn : ℕ) : ℕ × ℕ :=
  if fnn ≠ 0 ∧ fnn &&& 1 = 0 then skipEven (fnn >>> 1) (sn >>> 1) else (fnn, sn)
termination_by fnn
decreasing_by
  simp only [Nat.shiftRight_one]
  omega

namespace InclusionProof

/-- Generates the inclusion proof for `index` in the tree's current root. -/
def generate (tree : MerkleTree H) (index : Index) : Except ProofError InclusionProof := do
  let treeSize := tree.len
  if index.toNat ≥ treeSize then .error (.indexOutOfRange index.toNat treeSize)
  else
    let auditPath ← collectSiblings tree 0 treeSize index.toNat []
    .ok { treeSize := UInt64.ofNat treeSize, leafIndex := index, auditPath := auditPath }

/-- The reconstruction loop: `fnn` and `sn` are the positions of the node and of
the rightmost node on the current level. Returns the last `sn` and the root. -/
def verifyLoop (H : Hasher) (expected actual : ℕ) :
    List HashOutput → ℕ → ℕ → HashOutput → Except ProofError (ℕ × HashOutput)
  | [], _, sn, acc => .ok (sn, acc)
  | sibling :: rest, fnn, sn, acc =>
    if sn = 0 then .error (.malformedPath expected actual)
    else if fnn &&& 1 = 1 ∨ fnn = sn then
      let (fnn, sn) := skipEven fnn sn
      verifyLoop H expected actual rest (fnn >>> 1) (sn >>> 1) (hashNode H sibling acc)
    else verifyLoop H expected actual rest (fnn >>> 1) (sn >>> 1) (hashNode H acc sibling)

/-- Reconstructs the root from `leafHash` and the audit path and compares it with
`expectedRoot`; the path length is checked before any hashing. -/
def verify (H : Hasher) (proof : InclusionProof) (leafHash expectedRoot : HashOutput) :
    Except ProofError Unit :=
  let index := proof.leafIndex.toNat
  let size := proof.treeSize.toNat
  if index ≥ size then .error (.indexOutOfRange index size)
  else
    let expected := inclusionPathLen index size
    let actual := proof.auditPath.length
    if actual ≠ expected then .error (.malformedPath expected actual)
    else do
      let (sn, acc) ← verifyLoop H expected actual proof.auditPath index (size - 1) leafHash
      if sn ≠ 0 then .error (.malformedPath expected actual)
      else if acc = expectedRoot then .ok () else .error .rootMismatch

/-- The pairs of hashes that `verifyLoop` passes to `hashNode`. -/
def loopPairs (H : Hasher) : List HashOutput → ℕ → ℕ → HashOutput → List (HashOutput × HashOutput)
  | [], _, _, _ => []
  | sibling :: rest, fnn, sn, acc =>
    if sn = 0 then []
    else if fnn &&& 1 = 1 ∨ fnn = sn then
      let (fnn, sn) := skipEven fnn sn
      (sibling, acc) :: loopPairs H rest (fnn >>> 1) (sn >>> 1) (hashNode H sibling acc)
    else (acc, sibling) :: loopPairs H rest (fnn >>> 1) (sn >>> 1) (hashNode H acc sibling)

/-- The pairs of hashes that `verify` passes to `hashNode`. -/
def verifyPairs (H : Hasher) (proof : InclusionProof) (leafHash : HashOutput) :
    List (HashOutput × HashOutput) :=
  let index := proof.leafIndex.toNat
  let size := proof.treeSize.toNat
  if index ≥ size ∨ proof.auditPath.length ≠ inclusionPathLen index size then []
  else loopPairs H proof.auditPath index (size - 1) leafHash

end InclusionProof

end Mtc
