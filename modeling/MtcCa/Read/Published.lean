import MtcCa.Cloud.MemoryHsm
import MtcCa.Read.Serve
import MtcCa.Verify.Inclusion

/-! What the signer and the tile builder publish is enough for a relying party
(`crates/checkpoint-signer/src/signer.rs`, `crates/mtc/src/tile/mod.rs`,
`crates/mtc-read/src/lib.rs`, `crates/mtc-verify/src/lib.rs`). -/
namespace Mtc

open CheckpointSigner Cloud

variable {World : Type} {s : Signer World} {H : Hasher} {p : P256} {keyHandle : KeyHandle}
  {logId : LogId} {treeSize : TreeSize} {rootHash : HashOutput} {signedAt : UInt64} {world : World}
  {object : SignedCheckpointObject} {key : VerifyingKey}

/-- Every call of the retry loop was answered by the HSM. -/
theorem mem_calls_signWithRetry {input : List UInt8} {retries : ℕ} {calls : List SignCall}
    {call : SignCall}
    (h : call ∈ (s.signWithRetry keyHandle input retries calls world).calls) :
    call ∈ calls ∨ ∃ w, (s.hsmSign call.keyHandle call.data w).1 = call.answer := by
  fun_induction s.signWithRetry keyHandle input retries calls world with
  | case1 retries calls world signature world' hsign =>
    obtain hbefore | rfl := List.mem_append.mp h |>.imp_right List.mem_singleton.mp
    · exact Or.inl hbefore
    · exact Or.inr ⟨world, by rw [hsign]⟩
  | case2 retries calls₀ world error world' hsign calls hretry ih =>
    obtain hbefore | hanswered := ih h
    · obtain hbefore | rfl := List.mem_append.mp hbefore |>.imp_right List.mem_singleton.mp
      · exact Or.inl hbefore
      · exact Or.inr ⟨world, by rw [hsign]⟩
    · exact Or.inr hanswered
  | case3 retries calls₀ world error world' hsign calls attempts hretry =>
    obtain hbefore | rfl := List.mem_append.mp h |>.imp_right List.mem_singleton.mp
    · exact Or.inl hbefore
    · exact Or.inr ⟨world, by rw [hsign]⟩

theorem mem_calls_signCheckpoint {call : SignCall}
    (h : call ∈ (s.signCheckpoint keyHandle logId treeSize rootHash signedAt world).calls) :
    ∃ w, (s.hsmSign call.keyHandle call.data w).1 = call.answer := by
  unfold Signer.signCheckpoint at h
  dsimp only at h
  split at h
  · cases h
  · next input hinput =>
    have hcalls : call ∈ (s.signWithRetry keyHandle input 0 [] world).calls := by
      split at h
      · exact h
      · split at h <;> exact h
    obtain ⟨⟨⟩⟩ | hanswered := mem_calls_signWithRetry hcalls
    exact hanswered

/-- A signed object parses to a checkpoint of the signed values, and verifies with a key that
verifies what the HSM signs. -/
theorem verify_of_signCheckpoint
    (hhsm : ∀ data w signature, (s.hsmSign keyHandle data w).1 = .ok signature →
      (ecdsaP256 p).verify key data ⟨signature⟩ = .ok ())
    (h : (s.signCheckpoint keyHandle logId treeSize rootHash signedAt world).result = .ok object) :
    ∃ c, Checkpoint.parseTlsPresentation object.bytes = .ok c ∧ c.logId = logId ∧
      c.treeSize = treeSize ∧ c.rootHash = rootHash ∧ c.verify (ecdsaP256 p) key = .ok () := by
  obtain ⟨input, signature, hinput, hframe, -, hlast⟩ := s.signCheckpoint_eq_ok h
  obtain ⟨w, hsign⟩ := mem_calls_signCheckpoint (List.mem_of_getLast? hlast)
  refine ⟨⟨logId, treeSize, rootHash, signedAt, ⟨⟨signature⟩⟩⟩, ?_, rfl, rfl, rfl, ?_⟩
  · exact Checkpoint.parseTlsPresentation_eq_ok_iff.mpr (frameSignedCheckpoint_eq_ok_iff.mp hframe)
  · exact Checkpoint.verify_eq_ok_iff.mpr ⟨input, hinput, hhsm input w signature hsign⟩

/-- The entry of a leaf. -/
theorem exists_entry {entries : List LogEntry} {leaves : List LeafBytes} {leaf : LeafBytes} {i : ℕ}
    (h : entries.mapM LogEntry.leafBytes = .ok leaves) (hi : leaves[i]? = some leaf) :
    ∃ entry, entries[i]? = some entry ∧ entry.leafBytes = .ok leaf := by
  have hall := Outcome.forall₂_of_mapM_eq_ok h
  obtain ⟨hlt, rfl⟩ := List.getElem?_eq_some_iff.mp hi
  have hlt' : i < entries.length := by
    rw [hall.length_eq]
    exact hlt
  exact ⟨entries[i], List.getElem?_eq_getElem hlt', hall.get hlt' hlt⟩

/-- What is published is enough. Once the entries' leaves are in the tree, the tiles of a size are
among the files that were written (of any sizes, in any order), and the signer has signed the
checkpoint of that size, a relying party with the public key gets by from the object and the files
alone: the object parses, and for every index it serves a proof with which the entry at that index
verifies. -/
theorem published_entry_verifies
    (hhsm : ∀ data w signature, (s.hsmSign keyHandle data w).1 = .ok signature →
      (ecdsaP256 p).verify key data ⟨signature⟩ = .ok ())
    (entries : List LogEntry) (leaves : List LeafBytes)
    (hleaves : entries.mapM LogEntry.leafBytes = .ok leaves) (hlen : leaves.length < 2 ^ 64)
    (writes : List (String × List UInt8))
    (hwrites : ∀ w ∈ writes, ∃ m, ∃ t ∈ buildTiles H
      ((MerkleTree.new : MerkleTree H).appendAll (leaves.take m)).leaves,
      w = (t.coord.path, t.toBytes))
    (hsize : treeSize.toNat ≤ leaves.length)
    (hall : ∀ t ∈ buildTiles H
      ((MerkleTree.new : MerkleTree H).appendAll (leaves.take treeSize.toNat)).leaves,
      (t.coord.path, t.toBytes) ∈ writes)
    (hsign : (s.signCheckpoint keyHandle logId treeSize
      ((MerkleTree.new : MerkleTree H).appendAll (leaves.take treeSize.toNat)).root signedAt
      world).result = .ok object) :
    ∃ c, Checkpoint.parseTlsPresentation object.bytes = .ok c ∧
      ∀ index : Index, index.toNat < treeSize.toNat → ∃ entry hash proof,
        entries[index.toNat]? = some entry ∧ entry.leafHash H = .ok hash ∧
        serveInclusion H (FiniteMap.ofList writes).get? c.treeSize index = some (hash, proof) ∧
        verifyInclusion H p entry proof c key = .ok ⟨logId, treeSize, index, c.rootHash⟩ := by
  obtain ⟨c, hparse, rfl, rfl, hroot, hverify⟩ := verify_of_signCheckpoint hhsm hsign
  refine ⟨c, hparse, ?_⟩
  intro index hi
  have hbuilt : ∀ m, ((MerkleTree.new : MerkleTree H).appendAll (leaves.take m)).leaves =
      (leaves.map (fun l => hashLeaf H l.bytes)).take m := by
    intro m
    rw [MerkleTree.appendAll_leaves, List.map_take]
    rfl
  simp only [hbuilt] at hwrites hall
  have hcount : (leaves.map (fun l => hashLeaf H l.bytes)).length = leaves.length :=
    List.length_map ..
  obtain ⟨hash, proof, hserve, hhash, hproofSize, hproofIndex, -, hproof⟩ :=
    exists_served (by omega) (by omega) (get?_of_writes (by omega) hwrites hall) hi
  rw [List.getElem?_map, Option.map_eq_some_iff] at hhash
  obtain ⟨leaf, hleaf, rfl⟩ := hhash
  obtain ⟨entry, hentry, hbytes⟩ := exists_entry hleaves hleaf
  have haccepted : verifyInclusion H p entry proof c key = .ok
      ⟨c.logId, c.treeSize, proof.leafIndex, c.rootHash⟩ := by
    refine verifyInclusion_eq_ok_iff.mpr ⟨⟨leaf, hbytes, hproofSize, ?_, hverify⟩, rfl⟩
    rw [hroot, MerkleTree.root, hbuilt]
    exact hproof
  rw [hproofIndex] at haccepted
  exact ⟨entry, _, proof, hentry, leafHash_eq_ok_iff.mpr ⟨leaf, hbytes, rfl⟩, hserve, haccepted⟩

/-- A signer over the in-memory HSM. -/
def memorySigner : Signer (MemoryHsm.Holding MemoryHsm.sampleCurve ⟨"key"⟩ MemoryHsm.sampleKey) :=
  MemoryHsm.signer MemoryHsm.sampleCurve ⟨"key"⟩ MemoryHsm.sampleKey ⟨5, ⟨50000000⟩, ⟨5000000000⟩⟩

def memoryKeys : MemoryHsm.Holding MemoryHsm.sampleCurve ⟨"key"⟩ MemoryHsm.sampleKey :=
  ⟨FiniteMap.empty.insert ⟨"key"⟩ MemoryHsm.sampleKey, FiniteMap.get?_insert_self⟩

def nullTree : MerkleTree residueHasher :=
  (MerkleTree.new : MerkleTree residueHasher).appendAll [⟨[0, 0]⟩, ⟨[0, 0]⟩]

def nullFiles : List (String × List UInt8) :=
  (buildTiles residueHasher nullTree.leaves).map (fun t => (t.coord.path, t.toBytes))

/-- A log of two null entries serves its second one. -/
theorem published_entry_verifies_second : ∃ object c entry hash proof,
    (memorySigner.signCheckpoint ⟨"key"⟩ ⟨"log-a", logA_ne_empty⟩ 2 nullTree.root 0
      memoryKeys).result = .ok object ∧
    Checkpoint.parseTlsPresentation object.bytes = .ok c ∧
    serveInclusion residueHasher (FiniteMap.ofList nullFiles).get? c.treeSize 1 =
      some (hash, proof) ∧
    verifyInclusion residueHasher MemoryHsm.sampleCurve.toP256 entry proof c
      ⟨.ecdsaP256Sha256, MemoryHsm.sampleKey.1⟩ =
        .ok ⟨⟨"log-a", logA_ne_empty⟩, 2, 1, c.rootHash⟩ := by
  have hok : (memorySigner.signCheckpoint ⟨"key"⟩ ⟨"log-a", logA_ne_empty⟩ 2 nullTree.root 0
      memoryKeys).result.toOption.isSome = true := by
    unfold Signer.signCheckpoint Signer.signWithRetry
    decide +kernel
  cases hsign : (memorySigner.signCheckpoint ⟨"key"⟩ ⟨"log-a", logA_ne_empty⟩ 2 nullTree.root 0
      memoryKeys).result with
  | error e =>
    rw [hsign] at hok
    cases hok
  | ok object =>
    obtain ⟨c, hparse, hall⟩ := published_entry_verifies
      (MemoryHsm.verify_hsmSign MemoryHsm.sampleCurve_laws rfl) [.null, .null]
      [⟨[0, 0]⟩, ⟨[0, 0]⟩] rfl (by decide) nullFiles
      (fun w hw => by
        obtain ⟨t, ht, rfl⟩ := List.mem_map.mp hw
        exact ⟨2, t, ht, rfl⟩)
      (by decide) (fun t ht => List.mem_map_of_mem ht) hsign
    obtain ⟨entry, hash, proof, -, -, hserve, hverify⟩ := hall 1 (by decide)
    exact ⟨object, c, entry, hash, proof, rfl, hparse, hserve, hverify⟩

end Mtc
