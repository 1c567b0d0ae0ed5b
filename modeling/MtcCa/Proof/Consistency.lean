import MtcCa.Proof.Inclusion

/-! Consistency proofs: generation, the length formula and verification
(`crates/mtc/src/proof/consistency.rs`). -/
namespace Mtc

variable {H : Hasher}

/-- A proof that the tree of `oldSize` is a prefix of the tree of `newSize`. -/
structure ConsistencyProof where
  oldSize : TreeSize
  newSize : TreeSize
  path : List HashOutput
deriving DecidableEq

/-- The Merkle tree hash over `[start, stop)`, with a typed error out of range. -/
def subtree (tree : MerkleTree H) (start stop : ℕ) : Except ProofError HashOutput :=
  match tree.subtreeHash start stop with
  | some h => .ok h
  | none => .error (.treeTooSmall stop tree.len)

/-- Appends `SUBPROOF(m, D[start:stop], b)` to `out`. The source tests `m == n`
alone; a part of fewer than two leaves, which it never splits, stops here too. -/
def collectSubproof (tree : MerkleTree H) (m start stop : ℕ) (b : Bool) (out : List HashOutput) :
    Except ProofError (List HashOutput) :=
  let n := stop - start
  if m = n ∨ n < 2 then
    if b then .ok out
    else do
      let h ← subtree tree start stop
      .ok (out ++ [h])
  else
    let k := largestPowerOfTwoBelow n
    if m ≤ k then do
      let out ← collectSubproof tree m start (start + k) b out
      let h ← subtree tree (start + k) stop
      .ok (out ++ [h])
    else do
      let out ← collectSubproof tree (m - k) (start + k) stop false out
      let h ← subtree tree start (start + k)
      .ok (out ++ [h])
termination_by stop - start
decreasing_by
  all_goals
    have := Merkle.split_lt (n := stop - start) (by omega)
    have := Merkle.split_pos (stop - start)
    rw [largestPowerOfTwoBelow_eq_split]
    omega

/-- Length of `SUBPROOF(m, D[0:n], b)`, by the recursion of `collectSubproof`. -/
def subproofLen (m n : ℕ) (b : Bool) : ℕ :=
  if m = n ∨ n < 2 then if b then 0 else 1
  else
    let k := largestPowerOfTwoBelow n
    if m ≤ k then subproofLen m k b + 1 else subproofLen (m - k) (n - k) false + 1
termination_by n
decreasing_by
  all_goals
    have := Merkle.split_lt (n := n) (by omega)
    have := Merkle.split_pos n
    rw [largestPowerOfTwoBelow_eq_split]
    omega

/-- The number of hashes a consistency proof between `m` and `n` contains. -/
def consistencyPathLen (m n : ℕ) : ℕ := if m = 0 ∨ m = n then 0 else subproofLen m n true

namespace ConsistencyProof

/-- Generates the consistency proof between two sizes of one tree. -/
def generate (tree : MerkleTree H) (oldSize newSize : TreeSize) :
    Except ProofError ConsistencyProof := do
  let m := oldSize.toNat
  let n := newSize.toNat
  if m > n then .error (.nonMonotonicSizes m n)
  else if n > tree.len then .error (.treeTooSmall n tree.len)
  else
    let path ← if m = 0 ∨ m = n then .ok [] else collectSubproof tree m 0 n true []
    .ok { oldSize := oldSize, newSize := newSize, path := path }

/-- Bounds-checked path access. -/
def pathAt (path : List HashOutput) (idx expected : ℕ) : Except ProofError HashOutput :=
  match path[idx]? with
  | some h => .ok h
  | none => .error (.malformedPath expected path.length)

/-- Shifts both positions past the trailing one bits of `node`. -/
def skipOdd (node last : ℕ) : ℕ × ℕ :=
  if node &&& 1 = 1 then skipOdd (node >>> 1) (last >>> 1) else (node, last)
termination_by node
decreasing_by
  rename_i h
  rw [Nat.and_one_is_mod] at h
  rw [Nat.shiftRight_one]
  omega

/-- Where the accumulators start: the old root when the old tree is perfect, else the first
path element; with the next path position. -/
def seedOf (path : List HashOutput) (expected node : ℕ) (oldRoot : HashOutput) :
    Except ProofError (HashOutput × ℕ) :=
  if node > 0 then do
    let p ← pathAt path 0 expected
    .ok (p, 1)
  else .ok (oldRoot, 0)

/-- The loop `while node > 0`: `first` accumulates the old root and `second` the new. -/
def climbBoth (H : Hasher) (path : List HashOutput) (expected node last idx : ℕ)
    (first second : HashOutput) : Except ProofError (ℕ × ℕ × HashOutput × HashOutput) :=
  if node > 0 then
    if node &&& 1 = 1 then do
      let p ← pathAt path idx expected
      climbBoth H path expected (node >>> 1) (last >>> 1) (idx + 1) (hashNode H p first)
        (hashNode H p second)
    else if node < last then do
      let p ← pathAt path idx expected
      climbBoth H path expected (node >>> 1) (last >>> 1) (idx + 1) first (hashNode H second p)
    else climbBoth H path expected (node >>> 1) (last >>> 1) idx first second
  else .ok (last, idx, first, second)
termination_by node
decreasing_by
  all_goals
    rw [Nat.shiftRight_one]
    omega

/-- The loop `while last > 0`, which completes the new root. -/
def climbNew (H : Hasher) (path : List HashOutput) (expected last idx : ℕ) (second : HashOutput) :
    Except ProofError (ℕ × HashOutput) :=
  if last > 0 then do
    let p ← pathAt path idx expected
    climbNew H path expected (last >>> 1) (idx + 1) (hashNode H second p)
  else .ok (idx, second)
termination_by last
decreasing_by
  rw [Nat.shiftRight_one]
  omega

/-- Verifies that the tree of `oldSize` under `oldRoot` is a prefix of the tree of
`newSize` under `newRoot`. -/
def verify (H : Hasher) (proof : ConsistencyProof) (oldRoot newRoot : HashOutput) :
    Except ProofError Unit :=
  let m := proof.oldSize.toNat
  let n := proof.newSize.toNat
  if m > n then .error (.nonMonotonicSizes m n)
  else
    let expected := consistencyPathLen m n
    if proof.path.length ≠ expected then .error (.malformedPath expected proof.path.length)
    else if m = 0 then
      if oldRoot ≠ emptyRoot H then .error .rootMismatch
      else if n = 0 ∧ newRoot ≠ emptyRoot H then .error .rootMismatch
      else .ok ()
    else if m = n then
      if oldRoot = newRoot then .ok () else .error .rootMismatch
    else do
      let (node, last) := skipOdd (m - 1) (n - 1)
      let (seed, idx) ← seedOf proof.path expected node oldRoot
      let (last, idx, first, second) ← climbBoth H proof.path expected node last idx seed seed
      let (idx, second) ← climbNew H proof.path expected last idx second
      if idx ≠ proof.path.length then .error (.malformedPath idx proof.path.length)
      else if first = oldRoot ∧ second = newRoot then .ok () else .error .rootMismatch

/-- The pairs of hashes that `climbNew` passes to `hashNode`. -/
def climbNewPairs (H : Hasher) (path : List HashOutput) (last idx : ℕ) (second : HashOutput) :
    List (HashOutput × HashOutput) :=
  if last > 0 then
    match path[idx]? with
    | some p => (second, p) :: climbNewPairs H path (last >>> 1) (idx + 1) (hashNode H second p)
    | none => []
  else []
termination_by last
decreasing_by
  rw [Nat.shiftRight_one]
  omega

/-- The pairs of hashes that `climbBoth`, continued by `climbNew`, passes to `hashNode`. -/
def climbPairs (H : Hasher) (path : List HashOutput) (node last idx : ℕ)
    (first second : HashOutput) : List (HashOutput × HashOutput) :=
  if node > 0 then
    if node &&& 1 = 1 then
      match path[idx]? with
      | some p => (p, first) :: (p, second) :: climbPairs H path (node >>> 1) (last >>> 1) (idx + 1)
          (hashNode H p first) (hashNode H p second)
      | none => []
    else if node < last then
      match path[idx]? with
      | some p => (second, p) :: climbPairs H path (node >>> 1) (last >>> 1) (idx + 1) first
          (hashNode H second p)
      | none => []
    else climbPairs H path (node >>> 1) (last >>> 1) idx first second
  else climbNewPairs H path last idx second
termination_by node
decreasing_by
  all_goals
    rw [Nat.shiftRight_one]
    omega

/-- The pairs of hashes that `verify` passes to `hashNode`. -/
def verifyPairs (H : Hasher) (proof : ConsistencyProof) (oldRoot : HashOutput) :
    List (HashOutput × HashOutput) :=
  let m := proof.oldSize.toNat
  let n := proof.newSize.toNat
  if m > n ∨ proof.path.length ≠ consistencyPathLen m n ∨ m = 0 ∨ m = n then []
  else
    let (node, last) := skipOdd (m - 1) (n - 1)
    if node > 0 then
      match proof.path[0]? with
      | some p => climbPairs H proof.path node last 1 p p
      | none => []
    else climbPairs H proof.path node last 0 oldRoot oldRoot

end ConsistencyProof

end Mtc
