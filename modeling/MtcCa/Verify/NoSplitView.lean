import MtcCa.Lib.Transition
import MtcCa.LogEntry.Commitment
import MtcCa.Proof.Extension
import MtcCa.Verify.Inclusion

/-! A party that follows a log from checkpoint to checkpoint by accepted consistency proofs
(`crates/mtc/src/proof/consistency.rs`, `crates/mtc-verify/src/lib.rs`). No tree is assumed to
stand behind any root, only that the inputs hashed on the way do not collide. -/
namespace Mtc

open Merkle (Extends Opens)
open Transition (Trace)

/-- Two checkpoints with an accepted consistency proof between them. -/
structure Advance (H : Hasher) where
  old : Checkpoint Signed
  new : Checkpoint Signed
  path : List HashOutput
  accepted : ConsistencyProof.verify H ⟨old.treeSize, new.treeSize, path⟩
    old.rootHash new.rootHash = .ok ()

/-- Whoever holds the old checkpoint of an advance moves on to the new one. -/
def Follows (H : Hasher) (c : Checkpoint Signed) (a : Advance H) (c' : Checkpoint Signed) : Prop :=
  a.old = c ∧ a.new = c'

/-- The byte strings hashed in verifying an advance. -/
def Advance.inputs {H : Hasher} (a : Advance H) : List (List UInt8) :=
  (ConsistencyProof.verifyPairs H ⟨a.old.treeSize, a.new.treeSize, a.path⟩ a.old.rootHash).map
    (fun q => nodeInput q.1 q.2)

/-- The byte strings hashed in verifying the inclusion of an entry. -/
def inclusionInputs (H : Hasher) (entry : LogEntry) (proof : InclusionProof) :
    List (List UInt8) :=
  match entry.leafBytes with
  | .ok leaf => leafInput leaf.bytes ::
      (proof.verifyPairs H (hashLeaf H leaf.bytes)).map (fun q => nodeInput q.1 q.2)
  | .error _ => []

variable {H : Hasher} {p : P256} {S : Set (List UInt8)} {c c' : Checkpoint Signed}
  {as : List (Advance H)} {entry entry' : LogEntry} {proof proof' : InclusionProof}
  {key key' : VerifyingKey} {v v' : Verified}

theorem nodeInput_inj {l r l' r' : HashOutput} (h : nodeInput l r = nodeInput l' r') :
    l = l' ∧ r = r' := by
  obtain ⟨hl, hr⟩ := List.append_inj (List.cons.inj h).2 (by simp [HashOutput.asBytes])
  cases l
  cases r
  cases l'
  cases r'
  simp only [HashOutput.mk.injEq]
  exact ⟨List.Vector.toList_injective hl, List.Vector.toList_injective hr⟩

/-- Node hashes do not collide where their inputs do not. -/
theorem Hasher.CollisionFreeOn.nodes (h : H.CollisionFreeOn S) :
    Merkle.CollisionFreeOn (hashNode H) {q | nodeInput q.1 q.2 ∈ S} := by
  intro q hq q' hq' he
  have hin := h [[nodePrefix], q.1.asBytes, q.2.asBytes] [[nodePrefix], q'.1.asBytes, q'.2.asBytes]
    (by rwa [flatten_node]) (by rwa [flatten_node]) he
  rw [flatten_node, flatten_node] at hin
  obtain ⟨hl, hr⟩ := nodeInput_inj hin
  exact Prod.ext hl hr

/-- One advance extends the root held. -/
theorem Follows.extends {a : Advance H} (h : Follows H c a c') (hpos : 0 < c.treeSize.toNat)
    (hS : ∀ b ∈ a.inputs, b ∈ S) :
    Extends (hashNode H) {q | nodeInput q.1 q.2 ∈ S} c.treeSize.toNat c'.treeSize.toNat
      c.rootHash c'.rootHash := by
  obtain ⟨rfl, rfl⟩ := h
  exact ConsistencyProof.extends_of_verify hpos
    (fun q hq => hS _ (List.mem_map_of_mem hq)) a.accepted

/-- Whatever is followed extends the root the party started from. -/
theorem extends_of_follows (h : Trace (Follows H) c as c') (hpos : 0 < c.treeSize.toNat)
    (hcf : H.CollisionFreeOn S) (hS : ∀ a ∈ as, ∀ b ∈ a.inputs, b ∈ S) :
    Extends (hashNode H) {q | nodeInput q.1 q.2 ∈ S} c.treeSize.toNat c'.treeSize.toNat
      c.rootHash c'.rootHash := by
  induction h with
  | refl => exact .whole _ _
  | snoc _ hstep ih =>
    have hext := ih (fun a ha => hS a (List.mem_append_left _ ha))
    exact hext.trans hcf.nodes (hstep.extends (hpos.trans_le hext.le)
      (hS _ (List.mem_append_right _ (List.mem_singleton_self _))))

/-- An accepted entry opens the root of its checkpoint at its index. -/
theorem opens_of_verifyInclusion (h : verifyInclusion H p entry proof c key = .ok v)
    (hS : ∀ b ∈ inclusionInputs H entry proof, b ∈ S) :
    ∃ leaf, entry.leafBytes = .ok leaf ∧ leafInput leaf.bytes ∈ S ∧
      Opens (hashNode H) {q | nodeInput q.1 q.2 ∈ S} c.treeSize.toNat v.leafIndex.toNat
        (hashLeaf H leaf.bytes) proof.auditPath c.rootHash := by
  obtain ⟨⟨leaf, hleaf, hsize, hproof, -⟩, rfl⟩ := verifyInclusion_eq_ok_iff.mp h
  simp only [inclusionInputs, hleaf, List.mem_cons, forall_eq_or_imp, List.forall_mem_map] at hS
  refine ⟨leaf, hleaf, hS.1, ?_⟩
  have hopens := (InclusionProof.verify_opens_iff hS.2).mp hproof
  rwa [hsize] at hopens

/-- Where no hashed inputs collide, one index has one entry along followed checkpoints. -/
theorem entry_unique (h : Trace (Follows H) c as c')
    (hv : verifyInclusion H p entry proof c key = .ok v)
    (hv' : verifyInclusion H p entry' proof' c' key' = .ok v')
    (hindex : v.leafIndex = v'.leafIndex) (hcf : H.CollisionFreeOn S)
    (has : ∀ a ∈ as, ∀ b ∈ a.inputs, b ∈ S) (hin : ∀ b ∈ inclusionInputs H entry proof, b ∈ S)
    (hin' : ∀ b ∈ inclusionInputs H entry' proof', b ∈ S) : entry = entry' := by
  obtain ⟨leaf, hleaf, hmem, ho⟩ := opens_of_verifyInclusion hv hin
  obtain ⟨leaf', hleaf', hmem', ho'⟩ := opens_of_verifyInclusion hv' hin'
  have hext := extends_of_follows h (Nat.zero_lt_of_lt ho.lt) hcf has
  rw [← hindex] at ho'
  have hbytes := hashLeaf_inj hcf hmem hmem' (hext.agree hcf.nodes ho ho')
  rw [LogEntry.leafBytes_eq_ok_iff, hbytes] at hleaf
  rw [LogEntry.leafBytes_eq_ok_iff] at hleaf'
  exact delimits_logEntry.eq hleaf hleaf'

/-- No split view: along followed checkpoints one index never shows two different entries, however
the log made up its roots, paths and signatures. -/
theorem no_split_view (h : Trace (Follows H) c as c')
    (hv : verifyInclusion H p entry proof c key = .ok v)
    (hv' : verifyInclusion H p entry' proof' c' key' = .ok v')
    (hindex : v.leafIndex = v'.leafIndex)
    (hcf : H.CollisionFreeOn {b | (∃ a ∈ as, b ∈ a.inputs) ∨ b ∈ inclusionInputs H entry proof ∨
      b ∈ inclusionInputs H entry' proof'}) : entry = entry' :=
  entry_unique h hv hv' hindex hcf (fun a ha _ hb => Or.inl ⟨a, ha, hb⟩)
    (fun _ hb => Or.inr (Or.inl hb)) (fun _ hb => Or.inr (Or.inr hb))

/-- Nothing is dropped: an entry once accepted has an accepted path, at the same index, under
every checkpoint followed later. -/
theorem accepted_entry_persists (h : Trace (Follows H) c as c')
    (hv : verifyInclusion H p entry proof c key = .ok v)
    (hsig : c'.verify (ecdsaP256 p) key' = .ok ())
    (hcf : H.CollisionFreeOn {b | (∃ a ∈ as, b ∈ a.inputs) ∨ b ∈ inclusionInputs H entry proof}) :
    ∃ path, verifyInclusion H p entry ⟨c'.treeSize, v.leafIndex, path⟩ c' key' =
      .ok ⟨c'.logId, c'.treeSize, v.leafIndex, c'.rootHash⟩ := by
  obtain ⟨leaf, hleaf, -, ho⟩ := opens_of_verifyInclusion hv (fun b hb => Or.inr hb)
  have hext := extends_of_follows h (Nat.zero_lt_of_lt ho.lt) hcf
    (fun a ha b hb => Or.inl ⟨a, ha, hb⟩)
  obtain ⟨path, ho'⟩ := hext.opens hcf.nodes ho
  refine ⟨path, verifyInclusion_eq_ok_iff.mpr ⟨⟨leaf, hleaf, rfl, ?_, hsig⟩, rfl⟩⟩
  exact (InclusionProof.verify_opens_iff (fun _ _ => Set.mem_univ _)).mpr
    (ho'.mono (Set.subset_univ _))

section sample

/-- A curve library whose key holder has signed the given messages. -/
def signedP256 (messages : List (List UInt8)) : P256 where
  SecretKey := Unit
  PublicKey := Unit
  Sig := List UInt8
  secretKeyFromSlice _ := none
  publicKeyFromDer _ := some ()
  sigFromSlice b := some b
  trySign _ _ := none
  sigToBytes b := b
  verify _ m s := m ∈ messages ∧ s = List.replicate 64 7

/-- The sample log grown by one leaf. -/
def grownTree : List LeafBytes := sampleTree ++ [⟨[0, 3]⟩]

def grownCheckpoint : Checkpoint Signed where
  logId := ⟨"log-a", logA_ne_empty⟩
  treeSize := 4
  rootHash := ((MerkleTree.new : MerkleTree residueHasher).appendAll grownTree).root
  signedAt := 0
  state := ⟨⟨List.replicate 64 7⟩⟩

def grownMessage : List UInt8 :=
  subtreeSignatureLabel ++ [5, 108, 111, 103, 45, 97, 5, 108, 111, 103, 45, 97] ++
    List.replicate 15 0 ++ [4] ++ grownCheckpoint.rootHash.asBytes

def grownProof : InclusionProof :=
  ⟨4, 2, [hashLeaf residueHasher [0, 3],
    hashNode residueHasher (hashLeaf residueHasher [0, 1]) (hashLeaf residueHasher [0, 2])]⟩

def sampleAdvance : Advance residueHasher where
  old := sampleCheckpoint
  new := grownCheckpoint
  path := [hashLeaf residueHasher [0, 0], hashLeaf residueHasher [0, 3],
    hashNode residueHasher (hashLeaf residueHasher [0, 1]) (hashLeaf residueHasher [0, 2])]
  accepted := by decide +kernel

theorem sample_follows :
    Trace (Follows residueHasher) sampleCheckpoint [sampleAdvance] grownCheckpoint :=
  .snoc .refl ⟨rfl, rfl⟩

/-- The same entry, checked before and after the advance. -/
theorem no_split_view_grown :
    verifyInclusion residueHasher (signedP256 [sampleMessage, grownMessage]) .null sampleProof
        sampleCheckpoint ⟨.ecdsaP256Sha256, []⟩ =
      .ok ⟨sampleCheckpoint.logId, 3, 2, sampleCheckpoint.rootHash⟩ ∧
    verifyInclusion residueHasher (signedP256 [sampleMessage, grownMessage]) .null grownProof
        grownCheckpoint ⟨.ecdsaP256Sha256, []⟩ =
      .ok ⟨grownCheckpoint.logId, 4, 2, grownCheckpoint.rootHash⟩ ∧
    LogEntry.null = .null := by
  have hv : verifyInclusion residueHasher (signedP256 [sampleMessage, grownMessage]) .null
      sampleProof sampleCheckpoint ⟨.ecdsaP256Sha256, []⟩ =
        .ok ⟨sampleCheckpoint.logId, 3, 2, sampleCheckpoint.rootHash⟩ := by
    decide +kernel
  have hv' : verifyInclusion residueHasher (signedP256 [sampleMessage, grownMessage]) .null
      grownProof grownCheckpoint ⟨.ecdsaP256Sha256, []⟩ =
        .ok ⟨grownCheckpoint.logId, 4, 2, grownCheckpoint.rootHash⟩ := by
    decide +kernel
  have hcf : residueHasher.CollisionFreeOn
      {b | b ∈ sampleAdvance.inputs ++ (inclusionInputs residueHasher .null sampleProof ++
        inclusionInputs residueHasher .null grownProof)} :=
    residueHasher_collisionFreeOn (by decide +kernel)
  refine ⟨hv, hv', no_split_view sample_follows hv hv' rfl ?_⟩
  simpa using hcf

theorem accepted_entry_persists_grown :
    ∃ path, verifyInclusion residueHasher (signedP256 [sampleMessage, grownMessage]) .null
        ⟨4, 2, path⟩ grownCheckpoint ⟨.ecdsaP256Sha256, []⟩ =
      .ok ⟨grownCheckpoint.logId, 4, 2, grownCheckpoint.rootHash⟩ := by
  have hv : verifyInclusion residueHasher (signedP256 [sampleMessage, grownMessage]) .null
      sampleProof sampleCheckpoint ⟨.ecdsaP256Sha256, []⟩ =
        .ok ⟨sampleCheckpoint.logId, 3, 2, sampleCheckpoint.rootHash⟩ := by
    decide +kernel
  have hcf : residueHasher.CollisionFreeOn
      {b | b ∈ sampleAdvance.inputs ++ inclusionInputs residueHasher .null sampleProof} :=
    residueHasher_collisionFreeOn (by decide +kernel)
  refine accepted_entry_persists sample_follows hv (by decide +kernel) ?_
  simpa using hcf

end sample

end Mtc
