import MtcCa.Lib.Outcome
import MtcCa.Proof.Inclusion

/-! Generation, the length formula and the verification loop all follow the level
reading of the tree. The loop invariant is a level: its hashes, whose last position
is `sn`, and the node's position `fnn` on it. -/
namespace Mtc

open Merkle (siblings pairUp split)

variable {H : Hasher} {L : List HashOutput} {fnn sn i : ℕ}

theorem mthPairs_pairUp_subset (L : List HashOutput) :
    mthPairs H (pairUp (hashNode H) L) ⊆ mthPairs H L :=
  Merkle.nodePairs_pairUp_subset L

theorem mth_pairUp (L : List HashOutput) : mth H (pairUp (hashNode H) L) = mth H L := by
  rw [mth_eq_root, mth_eq_root, Merkle.root_pairUp]

theorem collectSiblings_eq {tree : MerkleTree H} {start stop index : ℕ} {out : List HashOutput}
    (hstop : stop ≤ tree.leaves.length) (hlo : start ≤ index) (hhi : index < stop) :
    collectSiblings tree start stop index out =
      .ok (out ++ siblings (hashNode H) (tree.leaves.extract start stop) (index - start)) := by
  induction hn : stop - start using Nat.strong_induction_on generalizing start stop out with
  | _ n ih =>
    have hlen := Slices.length_extract (l := tree.leaves) (s := start) hstop
    rw [collectSiblings]
    split
    · rw [Merkle.siblings_short (by omega), List.append_nil]
    · have hlt := Merkle.split_lt (n := stop - start) (by omega)
      have hpos := Merkle.split_pos (stop - start)
      simp only [largestPowerOfTwoBelow_eq_split]
      split
      · rw [ih _ (by omega) (by omega) hlo (by omega) rfl,
          Merkle.siblings_split_left (z := emptyRoot H) (l := tree.leaves.extract start stop)
            (by omega) (by rw [hlen]; omega), hlen, Slices.take_extract (by omega),
          Slices.drop_extract, ← mth_eq_root]
        simp only [bind, Except.bind]
        rw [tree.subtreeHash_of_le (by omega) hstop]
        simp
      · rw [ih _ (by omega) hstop (by omega) hhi rfl,
          Merkle.siblings_split_right (z := emptyRoot H) (l := tree.leaves.extract start stop)
            (by omega) (by rw [hlen]; omega) (by rw [hlen]; omega), hlen,
          Slices.take_extract (by omega), Slices.drop_extract, ← mth_eq_root]
        simp only [bind, Except.bind]
        rw [tree.subtreeHash_of_le (by omega) (by omega)]
        simp [Nat.sub_sub]

/-- The length loop counts the siblings of any list of the right length. -/
theorem inclusionPathLenLoop_eq {α : Type*} {f : α → α → α} {l : List α}
    {index start stop len : ℕ} (hl : l.length = stop - start) (hlo : start ≤ index)
    (hhi : index < stop) :
    inclusionPathLenLoop index start stop len =
      len + (siblings f l (index - start)).length := by
  induction hn : stop - start using Nat.strong_induction_on generalizing start stop len l with
  | _ n ih =>
    rw [inclusionPathLenLoop]
    split
    · have hlt := Merkle.split_lt (n := stop - start) (by omega)
      have hpos := Merkle.split_pos (stop - start)
      simp only [largestPowerOfTwoBelow_eq_split]
      have e : α := l.head (List.ne_nil_of_length_pos (by omega))
      split
      · rw [Merkle.siblings_split_left (z := e) (by omega) (by rw [hl]; omega), hl,
          ih _ (by omega) (l := l.take (split (stop - start))) (by simp; omega) hlo (by omega) rfl,
          List.length_append, List.length_singleton]
        omega
      · rw [Merkle.siblings_split_right (z := e) (by omega) (by omega) (by rw [hl]; omega), hl,
          ih _ (by omega) (l := l.drop (split (stop - start))) (by simp; omega) (by omega) hhi rfl,
          List.length_append, List.length_singleton, Nat.sub_sub]
        omega
    · rw [Merkle.siblings_short (by omega)]
      rfl

theorem inclusionPathLen_eq {α : Type*} {f : α → α → α} {l : List α} (hi : i < l.length) :
    inclusionPathLen i l.length = (siblings f l i).length := by
  rw [inclusionPathLen, inclusionPathLenLoop_eq (f := f) (l := l) (by omega) (by omega) hi,
    Nat.zero_add, Nat.sub_zero]

/-- Skipping from a promoted position climbs to the level where it is a right child. -/
theorem skipEven_level (hlen : L.length = sn + 1) (hpos : 0 < sn) :
    ∃ L' n', skipEven sn sn = (n', n') ∧ n' % 2 = 1 ∧ L'.length = n' + 1 ∧ L'[n']? = L[sn]? ∧
      siblings (hashNode H) L' n' = siblings (hashNode H) L sn ∧ mth H L' = mth H L ∧
      mthPairs H L' ⊆ mthPairs H L := by
  induction hn : sn using Nat.strong_induction_on generalizing L sn with
  | _ n ih =>
    subst hn
    rw [skipEven]
    simp only [Nat.and_one_is_mod, Nat.shiftRight_one]
    split
    · rename_i heven
      obtain ⟨L', n', hskip, hodd, hlen', hget, hsib, hmth, hsub⟩ :=
        ih (sn / 2) (by omega) (L := pairUp (hashNode H) L)
          (by rw [Merkle.length_pairUp]; omega) (by omega) rfl
      refine ⟨L', n', hskip, hodd, hlen', ?_, ?_, hmth.trans (mth_pairUp L),
        List.Subset.trans hsub (mthPairs_pairUp_subset L)⟩
      · rw [hget, Merkle.getElem?_pairUp_last (by omega), show 2 * (sn / 2) = sn by omega]
      · rw [hsib, Merkle.siblings_last hlen.symm heven.2]
    · exact ⟨L, sn, rfl, by omega, hlen, rfl, rfl, rfl, List.Subset.refl _⟩

/-- The order in which the loop hashes a sibling and the accumulator. -/
def orient (left : Bool) (sibling acc : HashOutput) : HashOutput × HashOutput :=
  if left then (sibling, acc) else (acc, sibling)

/-- What one round of the verification loop does to the level it stands on. -/
structure LevelStep (H : Hasher) (L : List HashOutput) (fnn sn : ℕ) where
  left : Bool
  fnn' : ℕ
  sn' : ℕ
  above : List HashOutput
  sibling : HashOutput
  self : HashOutput
  self_eq : L[fnn]? = some self
  siblings_eq : siblings (hashNode H) L fnn = sibling :: siblings (hashNode H) above fnn'
  length_eq : above.length = sn' + 1
  le : fnn' ≤ sn'
  parent_eq : above[fnn']? =
    some (hashNode H (orient left sibling self).1 (orient left sibling self).2)
  mth_eq : mth H above = mth H L
  pair_mem : orient left sibling self ∈ mthPairs H L
  pairs_subset : mthPairs H above ⊆ mthPairs H L
  loop_eq : ∀ e a s rest acc, InclusionProof.verifyLoop H e a (s :: rest) fnn sn acc =
    InclusionProof.verifyLoop H e a rest fnn' sn'
      (hashNode H (orient left s acc).1 (orient left s acc).2)
  loopPairs_eq : ∀ s rest acc, InclusionProof.loopPairs H (s :: rest) fnn sn acc =
    orient left s acc :: InclusionProof.loopPairs H rest fnn' sn'
      (hashNode H (orient left s acc).1 (orient left s acc).2)

/-- A right child: the sibling is on its left. -/
theorem levelStep_odd (hlen : L.length = sn + 1) (hle : fnn ≤ sn) (hodd : fnn % 2 = 1) :
    Nonempty (LevelStep H L fnn sn) := by
  have hx : L[fnn - 1]? = some L[fnn - 1] := List.getElem?_eq_getElem (by omega)
  have hy : L[fnn]? = some L[fnn] := List.getElem?_eq_getElem (by omega)
  have hx' : L[2 * (fnn / 2)]? = some L[fnn - 1] := by
    rw [← hx, show fnn - 1 = 2 * (fnn / 2) by omega]
  have hy' : L[2 * (fnn / 2) + 1]? = some L[fnn] := by
    rw [← hy, show fnn = 2 * (fnn / 2) + 1 by omega]
    congr 1
    omega
  have hskip : skipEven fnn sn = (fnn, sn) := by
    rw [skipEven, if_neg (by simp [Nat.and_one_is_mod, hodd])]
  exact ⟨{
    left := true
    fnn' := fnn / 2
    sn' := sn / 2
    above := pairUp (hashNode H) L
    sibling := L[fnn - 1]
    self := L[fnn]
    self_eq := hy
    siblings_eq := Merkle.siblings_odd (by omega) hodd hx
    length_eq := by rw [Merkle.length_pairUp]; omega
    le := by omega
    parent_eq := Merkle.getElem?_pairUp hx' hy'
    mth_eq := mth_pairUp L
    pair_mem := Merkle.mem_nodePairs hx' hy'
    pairs_subset := mthPairs_pairUp_subset L
    loop_eq := by
      intro e a s rest acc
      simp [InclusionProof.verifyLoop, Nat.and_one_is_mod, hodd, hskip, Nat.shiftRight_one,
        orient, show sn ≠ 0 by omega]
    loopPairs_eq := by
      intro s rest acc
      simp [InclusionProof.loopPairs, Nat.and_one_is_mod, hodd, hskip, Nat.shiftRight_one,
        orient, show sn ≠ 0 by omega] }⟩

/-- A left child with a right neighbour. -/
theorem levelStep_even (hlen : L.length = sn + 1) (hlt : fnn < sn) (heven : fnn % 2 = 0) :
    Nonempty (LevelStep H L fnn sn) := by
  have hx : L[fnn + 1]? = some L[fnn + 1] := List.getElem?_eq_getElem (by omega)
  have hy : L[fnn]? = some L[fnn] := List.getElem?_eq_getElem (by omega)
  have hx' : L[2 * (fnn / 2) + 1]? = some L[fnn + 1] := by
    rw [← hx, show 2 * (fnn / 2) = fnn by omega]
  have hy' : L[2 * (fnn / 2)]? = some L[fnn] := by
    rw [← hy, show 2 * (fnn / 2) = fnn by omega]
  exact ⟨{
    left := false
    fnn' := fnn / 2
    sn' := sn / 2
    above := pairUp (hashNode H) L
    sibling := L[fnn + 1]
    self := L[fnn]
    self_eq := hy
    siblings_eq := Merkle.siblings_even (by omega) heven hx
    length_eq := by rw [Merkle.length_pairUp]; omega
    le := by omega
    parent_eq := Merkle.getElem?_pairUp hy' hx'
    mth_eq := mth_pairUp L
    pair_mem := Merkle.mem_nodePairs hy' hx'
    pairs_subset := mthPairs_pairUp_subset L
    loop_eq := by
      intro e a s rest acc
      simp [InclusionProof.verifyLoop, Nat.and_one_is_mod, heven, Nat.shiftRight_one, orient,
        show sn ≠ 0 by omega, show fnn ≠ sn by omega]
    loopPairs_eq := by
      intro s rest acc
      simp [InclusionProof.loopPairs, Nat.and_one_is_mod, heven, Nat.shiftRight_one, orient,
        show sn ≠ 0 by omega, show fnn ≠ sn by omega] }⟩

/-- A promoted position: the loop consumes the sibling of the level it skips to. -/
theorem levelStep_last (hlen : L.length = sn + 1) (hpos : 0 < sn) (heven : sn % 2 = 0) :
    Nonempty (LevelStep H L sn sn) := by
  obtain ⟨L', n', hskip, hodd, hlen', hget, hsib, hmth, hsub⟩ := skipEven_level (H := H) hlen hpos
  obtain ⟨st⟩ := levelStep_odd (H := H) hlen' (Nat.le_refl n') hodd
  have hskip' : skipEven n' n' = (n', n') := by
    rw [skipEven, if_neg (by simp [Nat.and_one_is_mod, hodd])]
  have hn' : n' ≠ 0 := by omega
  exact ⟨{ st with
    self_eq := hget ▸ st.self_eq
    siblings_eq := hsib ▸ st.siblings_eq
    mth_eq := st.mth_eq.trans hmth
    pair_mem := hsub st.pair_mem
    pairs_subset := List.Subset.trans st.pairs_subset hsub
    loop_eq := by
      intro e a s rest acc
      rw [← st.loop_eq]
      simp [InclusionProof.verifyLoop, hskip, hskip', hn', show sn ≠ 0 by omega]
    loopPairs_eq := by
      intro s rest acc
      rw [← st.loopPairs_eq]
      simp [InclusionProof.loopPairs, hskip, hskip', hn', show sn ≠ 0 by omega] }⟩

/-- Below the root every position takes exactly one of the three kinds of step. -/
theorem levelStep (hlen : L.length = sn + 1) (hle : fnn ≤ sn) (hpos : sn ≠ 0) :
    Nonempty (LevelStep H L fnn sn) := by
  rcases Nat.mod_two_eq_zero_or_one fnn with heven | hodd
  · rcases Nat.lt_or_eq_of_le hle with hlt | rfl
    · exact levelStep_even hlen hlt heven
    · exact levelStep_last hlen (Nat.pos_of_ne_zero hpos) heven
  · exact levelStep_odd hlen hle hodd

namespace InclusionProof

variable {path : List HashOutput} {acc leafHash : HashOutput} {e a : ℕ}

/-- Honest siblings lead the loop to the root. -/
theorem verifyLoop_siblings (hlen : L.length = sn + 1) (hle : fnn ≤ sn)
    (hacc : L[fnn]? = some acc) :
    verifyLoop H e a (siblings (hashNode H) L fnn) fnn sn acc = .ok (0, mth H L) := by
  induction hp : siblings (hashNode H) L fnn generalizing L fnn sn acc with
  | nil =>
    have hsn : sn = 0 := by
      by_contra hne
      exact Merkle.siblings_ne_nil (by omega) (by omega) hp
    subst hsn
    obtain ⟨x, rfl⟩ : ∃ x, L = [x] := List.length_eq_one_iff.mp hlen
    have h0 : fnn = 0 := by omega
    subst h0
    have hx : x = acc := by simpa using hacc
    subst hx
    rw [verifyLoop, mth]
  | cons s rest ih =>
    have hsn : sn ≠ 0 := by
      rintro rfl
      rw [Merkle.siblings_short (by omega)] at hp
      cases hp
    obtain ⟨st⟩ := levelStep (H := H) hlen hle hsn
    have hself : st.self = acc := by simpa [st.self_eq] using hacc
    rw [st.siblings_eq] at hp
    obtain ⟨rfl, rfl⟩ := List.cons.inj hp
    rw [st.loop_eq, ← hself, ← st.mth_eq]
    exact ih st.length_eq st.le st.parent_eq rfl

/-- A loop that reaches the root started from the tree's own hash and was given the
tree's own siblings, unless two of the hashed pairs collide. -/
theorem verifyLoop_sound (hlen : L.length = sn + 1) (hle : fnn ≤ sn)
    (hcf : Merkle.CollisionFreeOn (hashNode H)
      {p | p ∈ mthPairs H L ∨ p ∈ loopPairs H path fnn sn acc})
    (h : verifyLoop H e a path fnn sn acc = .ok (0, mth H L)) :
    L[fnn]? = some acc ∧ path = siblings (hashNode H) L fnn := by
  induction path generalizing L fnn sn acc with
  | nil =>
    obtain ⟨rfl, rfl⟩ : sn = 0 ∧ acc = mth H L := by simpa [verifyLoop] using h
    obtain ⟨x, rfl⟩ : ∃ x, L = [x] := List.length_eq_one_iff.mp hlen
    have h0 : fnn = 0 := by omega
    subst h0
    rw [mth, Merkle.siblings_short (by simp)]
    simp
  | cons s rest ih =>
    have hsn : sn ≠ 0 := by
      rintro rfl
      simp [verifyLoop] at h
    obtain ⟨st⟩ := levelStep (H := H) hlen hle hsn
    rw [st.loop_eq, ← st.mth_eq] at h
    rw [st.loopPairs_eq] at hcf
    obtain ⟨hparent, hrest⟩ := ih st.length_eq st.le
      (hcf.mono (by
        rintro p (hp | hp)
        · exact Or.inl (st.pairs_subset hp)
        · exact Or.inr (List.mem_cons_of_mem _ hp))) h
    -- the parent is hashed once from the tree's pair and once from the verifier's
    have hnode := st.parent_eq.symm.trans hparent
    have hpair := hcf (Or.inl st.pair_mem) (Or.inr List.mem_cons_self) (Option.some.inj hnode)
    have heq : st.sibling = s ∧ st.self = acc := by
      unfold orient at hpair
      split at hpair <;> simp_all
    rw [st.self_eq, st.siblings_eq, heq.1, heq.2, ← hrest]
    exact ⟨rfl, rfl⟩

theorem generate_eq {leaves : List HashOutput} {index : Index}
    (hi : index.toNat < leaves.length) :
    generate (⟨leaves⟩ : MerkleTree H) index =
      .ok ⟨UInt64.ofNat leaves.length, index, siblings (hashNode H) leaves index.toNat⟩ := by
  have hlen : (⟨leaves⟩ : MerkleTree H).len = leaves.length := rfl
  rw [generate, if_neg (by rw [hlen]; omega), hlen,
    collectSiblings_eq (by simp) (Nat.zero_le _) hi, Slices.extract_zero_length]
  rfl

/-- Verification accepts exactly when the checks before the loop pass and the loop
ends at the expected root. -/
theorem verify_eq_ok_iff {proof : InclusionProof} {root : HashOutput} :
    proof.verify H leafHash root = .ok () ↔
      proof.leafIndex.toNat < proof.treeSize.toNat ∧
      proof.auditPath.length = inclusionPathLen proof.leafIndex.toNat proof.treeSize.toNat ∧
      verifyLoop H (inclusionPathLen proof.leafIndex.toNat proof.treeSize.toNat)
        proof.auditPath.length proof.auditPath proof.leafIndex.toNat (proof.treeSize.toNat - 1)
        leafHash = .ok (0, root) := by
  unfold verify
  simp only [Outcome.ite_error_eq_ok_iff, Outcome.ite_else_error_eq_ok_iff,
    Outcome.bind_eq_ok_iff, Prod.exists, ge_iff_le, not_le, ne_eq, not_not]
  constructor
  · rintro ⟨hi, hl, sn, acc, hloop, rfl, rfl, -⟩
    exact ⟨hi, hl, hloop⟩
  · rintro ⟨hi, hl, hloop⟩
    exact ⟨hi, hl, 0, root, hloop, rfl, rfl, trivial⟩

/-- An inclusion proof is accepted exactly when it is the generated one for the leaf
at its index. Forged paths range over every list of hashes; the assumption speaks
only of the pairs hashed by the tree and by this verification, and an injective
`hashNode` meets it for every tree and proof. -/
theorem verify_mth_iff_generated {leaves : List HashOutput} (proof : InclusionProof)
    (hn : leaves.length = proof.treeSize.toNat)
    (hcf : Merkle.CollisionFreeOn (hashNode H)
      {p | p ∈ mthPairs H leaves ∨ p ∈ proof.verifyPairs H leafHash}) :
    proof.verify H leafHash (mth H leaves) = .ok () ↔
      proof.leafIndex.toNat < leaves.length ∧
      leaves[proof.leafIndex.toNat]? = some leafHash ∧
      generate (⟨leaves⟩ : MerkleTree H) proof.leafIndex = .ok proof := by
  have hsize : UInt64.ofNat leaves.length = proof.treeSize := by rw [hn, UInt64.ofNat_toNat]
  rw [verify_eq_ok_iff]
  constructor
  · rintro ⟨hi, hl, hloop⟩
    rw [← hn] at hi
    rw [verifyPairs, if_neg (by omega)] at hcf
    obtain ⟨hget, hpath⟩ := verifyLoop_sound (by omega) (by omega) hcf hloop
    refine ⟨hi, hget, ?_⟩
    rw [generate_eq hi, hsize, ← hpath]
  · rintro ⟨hi, hget, hgen⟩
    rw [generate_eq hi, hsize] at hgen
    have hpath : siblings (hashNode H) leaves proof.leafIndex.toNat = proof.auditPath :=
      congrArg InclusionProof.auditPath (Except.ok.inj hgen)
    refine ⟨by omega, ?_, ?_⟩
    · rw [← hpath, ← hn, inclusionPathLen_eq (f := hashNode H) hi]
    · rw [← hpath]
      exact verifyLoop_siblings (by omega) (by omega) hget

/-- Three leaf hashes to evaluate on. -/
def sampleLeaves : List HashOutput :=
  [⟨List.Vector.replicate 32 1⟩, ⟨List.Vector.replicate 32 2⟩, ⟨List.Vector.replicate 32 3⟩]

/-- The proof of the third of three leaves, whose level-0 position is promoted. -/
def samplePath : List HashOutput :=
  [hashNode residueHasher ⟨List.Vector.replicate 32 1⟩ ⟨List.Vector.replicate 32 2⟩]

theorem verify_mth_iff_generated_third :
    verify residueHasher ⟨3, 2, samplePath⟩ ⟨List.Vector.replicate 32 3⟩
        (mth residueHasher sampleLeaves) = .ok () ↔
      (2 : Index).toNat < sampleLeaves.length ∧
      sampleLeaves[(2 : Index).toNat]? = some ⟨List.Vector.replicate 32 3⟩ ∧
      generate (⟨sampleLeaves⟩ : MerkleTree residueHasher) 2 = .ok ⟨3, 2, samplePath⟩ :=
  verify_mth_iff_generated ⟨3, 2, samplePath⟩ (by decide)
    (Merkle.collisionFreeOn_of_forall_mem
      (mthPairs residueHasher sampleLeaves ++
        verifyPairs residueHasher ⟨3, 2, samplePath⟩ ⟨List.Vector.replicate 32 3⟩)
      (by decide +kernel) (fun _ hp => List.mem_append.mpr hp))

/-- Every leaf of a tree built by appends has a proof of the expected length that
verifies, and keeps verifying against the root the grown tree reports for its size. -/
theorem generate_verifies (entries : List LeafBytes) (i : Index)
    (hlt : entries.length < 2 ^ 64) (hi : i.toNat < entries.length) :
    ∃ proof, generate ((MerkleTree.new : MerkleTree H).appendAll entries) i = .ok proof ∧
      proof.auditPath.length = inclusionPathLen i.toNat entries.length ∧
      ((MerkleTree.new : MerkleTree H).appendAll entries).leafHash i.toNat =
        some (hashLeaf H entries[i.toNat].bytes) ∧
      proof.verify H (hashLeaf H entries[i.toNat].bytes)
        ((MerkleTree.new : MerkleTree H).appendAll entries).root = .ok () ∧
      ∀ more, ∃ old,
        (((MerkleTree.new : MerkleTree H).appendAll entries).appendAll more).subtreeHash
          0 entries.length = some old ∧
        old = ((MerkleTree.new : MerkleTree H).appendAll entries).root ∧
        proof.verify H (hashLeaf H entries[i.toNat].bytes) old = .ok () := by
  have hleaves : ((MerkleTree.new : MerkleTree H).appendAll entries).leaves =
      entries.map (fun l => hashLeaf H l.bytes) := by
    rw [MerkleTree.appendAll_leaves]
    rfl
  generalize (MerkleTree.new : MerkleTree H).appendAll entries = tree at hleaves ⊢
  obtain ⟨leaves⟩ := tree
  subst hleaves
  have hlen : (entries.map (fun l => hashLeaf H l.bytes)).length = entries.length := by simp
  have hget : (entries.map (fun l => hashLeaf H l.bytes))[i.toNat]? =
      some (hashLeaf H entries[i.toNat].bytes) := by simp [hi]
  have hsize : (UInt64.ofNat entries.length).toNat = entries.length :=
    UInt64.toNat_ofNat_of_lt' hlt
  have hpath := inclusionPathLen_eq (f := hashNode H)
    (l := entries.map (fun l => hashLeaf H l.bytes)) (by omega : i.toNat < _)
  have hverify : verify H ⟨UInt64.ofNat entries.length, i,
      siblings (hashNode H) (entries.map (fun l => hashLeaf H l.bytes)) i.toNat⟩
      (hashLeaf H entries[i.toNat].bytes)
      (mth H (entries.map (fun l => hashLeaf H l.bytes))) = .ok () := by
    rw [verify_eq_ok_iff]
    refine ⟨by simpa [hsize] using hi, ?_, ?_⟩
    · simp only [hsize]
      rw [← hpath, hlen]
    · exact verifyLoop_siblings (by simp only [hsize]; omega) (by simp only [hsize]; omega) hget
  refine ⟨_, generate_eq (by omega), ?_, hget, ?_, ?_⟩
  · rw [← hpath, hlen]
  · rw [hlen]
    exact hverify
  · intro more
    refine ⟨_, ?_, rfl, ?_⟩
    · rw [MerkleTree.subtreeHash_appendAll _ (by simp), MerkleTree.subtreeHash_of_le _ (by omega)
        (by simp), Slices.extract_zero, List.take_of_length_le (by simp)]
      rfl
    · rw [hlen]
      exact hverify

theorem generate_verifies_third :
    ∃ proof, generate ((MerkleTree.new : MerkleTree residueHasher).appendAll
        [⟨[0, 0]⟩, ⟨[0, 1]⟩, ⟨[0, 0]⟩]) 2 = .ok proof ∧
      proof.auditPath.length = inclusionPathLen 2 3 :=
  let ⟨proof, hgen, hlen, _⟩ := generate_verifies (H := residueHasher)
    [⟨[0, 0]⟩, ⟨[0, 1]⟩, ⟨[0, 0]⟩] 2 (by decide) (by decide)
  ⟨proof, hgen, hlen⟩

end InclusionProof

end Mtc
