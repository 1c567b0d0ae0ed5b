import MtcCa.Checkpoint.Canonical
import MtcCa.LogEntry.Entry
import MtcCa.Proof.InclusionCorrect

/-! The relying party's inclusion check (`crates/mtc-verify/src/lib.rs`), and what an accepted
entry is known to be. -/
namespace Mtc

/-- The facts a successful verification established. -/
structure Verified where
  logId : LogId
  treeSize : TreeSize
  leafIndex : Index
  rootHash : HashOutput
deriving DecidableEq

inductive VerifyError where
  | malformedEntry
  | sizeMismatch (proofTreeSize checkpointTreeSize : UInt64)
  | indexOutOfRange (index treeSize : ℕ)
  | malformedProof (expected actual : ℕ)
  | wrongRoot
  | badSignature
deriving DecidableEq

def mapProofError : ProofError → VerifyError
  | .indexOutOfRange index treeSize => .indexOutOfRange index treeSize
  | .malformedPath expected actual => .malformedProof expected actual
  | .rootMismatch => .wrongRoot
  | .nonMonotonicSizes _ _ | .treeTooSmall _ _ => .malformedProof 0 0

/-- Verifies that `entry` is included at the proof's leaf index in the tree the signed
checkpoint commits to. -/
def verifyInclusion (H : Hasher) (p : P256) (entry : LogEntry) (proof : InclusionProof)
    (checkpoint : Checkpoint Signed) (caPubkey : VerifyingKey) : Except VerifyError Verified := do
  let leafHash ← (entry.leafHash H).mapError (fun _ => .malformedEntry)
  if proof.treeSize ≠ checkpoint.treeSize then
    .error (.sizeMismatch proof.treeSize checkpoint.treeSize)
  else
    (proof.verify H leafHash checkpoint.rootHash).mapError mapProofError
    (checkpoint.verify (ecdsaP256 p) caPubkey).mapError (fun _ => .badSignature)
    .ok ⟨checkpoint.logId, checkpoint.treeSize, proof.leafIndex, checkpoint.rootHash⟩

/-- One of the signed messages is the checkpoint message of these values, and the message of
no other subtree. -/
def Attested (signed : Set (List UInt8)) (logId : LogId) (treeSize : TreeSize)
    (rootHash : HashOutput) : Prop :=
  ∃ m ∈ signed, ∀ cosignerId logId' start stop hash,
    subtreeSignatureInput cosignerId logId' start stop hash = .ok m ↔
      cosignerId = logId.asBytes ∧ logId' = logId.asBytes ∧ start = 0 ∧ stop = treeSize ∧
        hash = rootHash

/-- No two different inputs hashed by the tree over `leaves` and by verifying `leaf` against it
have one hash. -/
structure CollisionFree (H : Hasher) (leaves : List LeafBytes) (leaf : LeafBytes)
    (proof : InclusionProof) : Prop where
  node : Merkle.CollisionFreeOn (hashNode H)
    {q | q ∈ mthPairs H (leaves.map (fun l => hashLeaf H l.bytes)) ∨
      q ∈ proof.verifyPairs H (hashLeaf H leaf.bytes)}
  leaf : Set.InjOn (fun l : LeafBytes => hashLeaf H l.bytes) {l | l ∈ leaves ∨ l = leaf}

variable {H : Hasher} {p : P256} {entry : LogEntry} {proof : InclusionProof}
  {checkpoint : Checkpoint Signed} {key : VerifyingKey}

theorem leafHash_eq_ok_iff {hash : HashOutput} :
    entry.leafHash H = .ok hash ↔
      ∃ leaf, entry.leafBytes = .ok leaf ∧ hash = hashLeaf H leaf.bytes := by
  rw [LogEntry.leafHash, Outcome.bind_eq_ok_iff]
  simp only [Except.ok.injEq, eq_comm (a := hash)]

theorem Checkpoint.verify_eq_ok_iff {scheme : SignatureScheme} :
    checkpoint.verify scheme key = .ok () ↔ ∃ input, checkpoint.signatureInput = .ok input ∧
      scheme.verify key input checkpoint.state.signature = .ok () := by
  simp only [Checkpoint.verify, Outcome.bind_eq_ok_iff, Outcome.mapError_eq_ok_iff]

/-- The four checks, all of which have to pass. -/
theorem verifyInclusion_eq_ok_iff {v : Verified} :
    verifyInclusion H p entry proof checkpoint key = .ok v ↔
      (∃ leaf, entry.leafBytes = .ok leaf ∧ proof.treeSize = checkpoint.treeSize ∧
        proof.verify H (hashLeaf H leaf.bytes) checkpoint.rootHash = .ok () ∧
        checkpoint.verify (ecdsaP256 p) key = .ok ()) ∧
      v = ⟨checkpoint.logId, checkpoint.treeSize, proof.leafIndex, checkpoint.rootHash⟩ := by
  simp only [verifyInclusion, Outcome.bind_eq_ok_iff, Outcome.mapError_eq_ok_iff,
    leafHash_eq_ok_iff, Outcome.ite_error_eq_ok_iff, ne_eq, not_not, Except.ok.injEq]
  constructor
  · rintro ⟨_, ⟨leaf, hleaf, rfl⟩, hsize, ⟨⟩, hproof, ⟨⟩, hsig, rfl⟩
    exact ⟨⟨leaf, hleaf, hsize, hproof, hsig⟩, rfl⟩
  · rintro ⟨⟨leaf, hleaf, hsize, hproof, hsig⟩, rfl⟩
    exact ⟨_, ⟨leaf, hleaf, rfl⟩, hsize, (), hproof, (), hsig, rfl⟩

theorem attested_of_mem {signed : Set (List UInt8)} {m : List UInt8}
    (h : checkpoint.signatureInput = .ok m) (hm : m ∈ signed) :
    Attested signed checkpoint.logId checkpoint.treeSize checkpoint.rootHash := by
  refine ⟨m, hm, ?_⟩
  intro cosignerId logId' start stop hash
  constructor
  · intro h'
    obtain ⟨rfl, rfl, rfl, rfl, rfl⟩ := subtreeSignatureInput_inj h h'
    exact ⟨rfl, rfl, rfl, rfl, rfl⟩
  · rintro ⟨rfl, rfl, rfl, rfl, rfl⟩
    exact h

/-- A proof accepted for a leaf against the root of a list of leaves finds it at its index. -/
theorem leaf_of_verify {leaves : List LeafBytes} {leaf : LeafBytes}
    (hlen : leaves.length = proof.treeSize.toNat) (hcf : CollisionFree H leaves leaf proof)
    (h : proof.verify H (hashLeaf H leaf.bytes)
      ((MerkleTree.new : MerkleTree H).appendAll leaves).root = .ok ()) :
    leaves[proof.leafIndex.toNat]? = some leaf := by
  rw [MerkleTree.root, MerkleTree.appendAll_leaves] at h
  obtain ⟨hi, hpath, hloop⟩ := InclusionProof.verify_eq_ok_iff.mp h
  have hnode := hcf.node
  rw [InclusionProof.verifyPairs, if_neg (by omega)] at hnode
  obtain ⟨hget, -⟩ := InclusionProof.verifyLoop_sound
    (by rw [List.length_map]; omega) (by omega) hnode hloop
  rw [List.getElem?_map, Option.map_eq_some_iff] at hget
  obtain ⟨found, hfound, hhash⟩ := hget
  have hmem : found ∈ leaves := List.mem_of_getElem? hfound
  rw [hfound, hcf.leaf (Or.inl hmem) (Or.inr rfl) hhash]

/-- An accepted entry is the leaf at its index of the tree the key holder signed; nothing but
the four checks stands between an entry and acceptance. -/
theorem verifyInclusion_sound (H : Hasher) (p : P256) (signed : VerifyingKey → Set (List UInt8))
    (hsigned : ∀ key message signature,
      (ecdsaP256 p).verify key message signature = .ok () → message ∈ signed key)
    (entry : LogEntry) (proof : InclusionProof) (checkpoint : Checkpoint Signed)
    (key : VerifyingKey) :
    (∀ v, verifyInclusion H p entry proof checkpoint key = .ok v →
      v = ⟨checkpoint.logId, checkpoint.treeSize, proof.leafIndex, checkpoint.rootHash⟩ ∧
      Attested (signed key) v.logId v.treeSize v.rootHash ∧
      ∃ leaf, entry.leafBytes = .ok leaf ∧ ∀ leaves : List LeafBytes,
        leaves.length = v.treeSize.toNat →
        ((MerkleTree.new : MerkleTree H).appendAll leaves).root = v.rootHash →
        CollisionFree H leaves leaf proof → leaves[v.leafIndex.toNat]? = some leaf) ∧
    ∀ leaf, entry.leafBytes = .ok leaf → proof.treeSize = checkpoint.treeSize →
      proof.verify H (hashLeaf H leaf.bytes) checkpoint.rootHash = .ok () →
      checkpoint.verify (ecdsaP256 p) key = .ok () →
      verifyInclusion H p entry proof checkpoint key =
        .ok ⟨checkpoint.logId, checkpoint.treeSize, proof.leafIndex, checkpoint.rootHash⟩ := by
  constructor
  · intro v hv
    obtain ⟨⟨leaf, hleaf, hsize, hproof, hsig⟩, rfl⟩ := verifyInclusion_eq_ok_iff.mp hv
    obtain ⟨m, hm, hverify⟩ := Checkpoint.verify_eq_ok_iff.mp hsig
    refine ⟨rfl, attested_of_mem hm (hsigned _ _ _ hverify), leaf, hleaf, ?_⟩
    intro leaves hlen hroot hcf
    dsimp only at hlen hroot
    rw [← hsize] at hlen
    rw [← hroot] at hproof
    exact leaf_of_verify hlen hcf hproof
  · intro leaf hleaf hsize hproof hsig
    exact verifyInclusion_eq_ok_iff.mpr ⟨⟨leaf, hleaf, hsize, hproof, hsig⟩, rfl⟩

/-- A curve library whose key holder has signed one message. -/
def sampleP256 (message : List UInt8) : P256 where
  SecretKey := Unit
  PublicKey := Unit
  Sig := List UInt8
  secretKeyFromSlice _ := none
  publicKeyFromDer _ := some ()
  sigFromSlice b := some b
  trySign _ _ := none
  sigToBytes b := b
  verify _ m s := m = message ∧ s = List.replicate 64 7

/-- A tree whose third leaf is the null entry, its checkpoint and the proof of that leaf. -/
def sampleTree : List LeafBytes := [⟨[0, 1]⟩, ⟨[0, 2]⟩, ⟨[0, 0]⟩]

theorem logA_ne_empty : "log-a" ≠ "" := by decide

def sampleCheckpoint : Checkpoint Signed where
  logId := ⟨"log-a", logA_ne_empty⟩
  treeSize := 3
  rootHash := ((MerkleTree.new : MerkleTree residueHasher).appendAll sampleTree).root
  signedAt := 0
  state := ⟨⟨List.replicate 64 7⟩⟩

def sampleProof : InclusionProof :=
  ⟨3, 2, [hashNode residueHasher (hashLeaf residueHasher [0, 1]) (hashLeaf residueHasher [0, 2])]⟩

def sampleMessage : List UInt8 :=
  subtreeSignatureLabel ++ [5, 108, 111, 103, 45, 97, 5, 108, 111, 103, 45, 97] ++
    List.replicate 15 0 ++ [3] ++ sampleCheckpoint.rootHash.asBytes

theorem verifyInclusion_sound_null_entry :
    verifyInclusion residueHasher (sampleP256 sampleMessage) .null sampleProof sampleCheckpoint
        ⟨.ecdsaP256Sha256, []⟩ = .ok ⟨⟨"log-a", by decide⟩, 3, 2, sampleCheckpoint.rootHash⟩ ∧
      Attested {sampleMessage} sampleCheckpoint.logId 3 sampleCheckpoint.rootHash ∧
      sampleTree[2]? = some ⟨[0, 0]⟩ := by
  have hsigned : ∀ key message signature,
      (ecdsaP256 (sampleP256 sampleMessage)).verify key message signature = .ok () →
        message ∈ ({sampleMessage} : Set (List UInt8)) := by
    intro key message signature h
    obtain ⟨verifying, -, h⟩ := Outcome.bind_eq_ok_iff.mp h
    obtain ⟨-, h⟩ := Outcome.ite_error_eq_ok_iff.mp h
    obtain ⟨h, -⟩ := Outcome.ite_else_error_eq_ok_iff.mp h
    exact (of_decide_eq_true h).1
  have hcf : CollisionFree residueHasher sampleTree ⟨[0, 0]⟩ sampleProof := by
    constructor
    · exact Merkle.collisionFreeOn_of_forall_mem
        (mthPairs residueHasher (sampleTree.map (fun l => hashLeaf residueHasher l.bytes)) ++
          sampleProof.verifyPairs residueHasher (hashLeaf residueHasher [0, 0]))
        (by decide +kernel) (fun _ hp => List.mem_append.mpr hp)
    · have hinj : ∀ a ∈ sampleTree ++ [⟨[0, 0]⟩], ∀ b ∈ sampleTree ++ [⟨[0, 0]⟩],
          hashLeaf residueHasher a.bytes = hashLeaf residueHasher b.bytes → a = b := by
        decide +kernel
      intro a ha b hb h
      exact hinj a (by simpa using ha) b (by simpa using hb) h
  obtain ⟨hsound, hcomplete⟩ := verifyInclusion_sound residueHasher (sampleP256 sampleMessage)
    (fun _ => {sampleMessage}) hsigned .null sampleProof sampleCheckpoint ⟨.ecdsaP256Sha256, []⟩
  have hok := hcomplete ⟨[0, 0]⟩ rfl rfl (by decide +kernel) (by decide +kernel)
  obtain ⟨-, hattested, leaf, hleaf, hall⟩ := hsound _ hok
  cases hleaf
  exact ⟨hok, hattested, hall sampleTree rfl rfl hcf⟩

end Mtc
