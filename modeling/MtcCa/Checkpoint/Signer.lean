import MtcCa.Checkpoint.Canonical
import MtcCa.Cloud.Types

/-! The checkpoint signer: a checkpoint is built, signed on the HSM and framed
(`crates/checkpoint-signer/src/framing.rs`, `crates/checkpoint-signer/src/signer.rs`,
`crates/checkpoint-signer/src/retry.rs`, `crates/checkpoint-signer/src/error.rs`). -/
namespace CheckpointSigner

open Cloud Mtc

/-- The size of an `r || s` signature. -/
def p1363SignatureLen : ℕ := 64

inductive CheckpointSignError where
  | input (e : TrustAnchorIdError)
  | malformedSignature (expected actual : ℕ)
  | hsmSigningFailed (attempts : ℕ) (source : CloudError)
deriving DecidableEq

def checkpointObjectPrefix : String := "checkpoints/"

/-- The object key of a checkpoint: its tree size in at least 16 decimal digits. -/
def checkpointObjectKey (treeSize : TreeSize) : String :=
  checkpointObjectPrefix ++ String.ofList ((toString treeSize.toNat).toList.leftpad 16 '0') ++
    ".signed"

/-- The object body, written field by field. -/
def frameSignedCheckpoint (logId : LogId) (treeSize : TreeSize) (rootHash : HashOutput)
    (signedAt : UInt64) (signature : List UInt8) : Except CheckpointSignError (List UInt8) := do
  let id := logId.asBytes
  let taidLen ← (trustAnchorIdLenByte id).mapError .input
  if signature.length < 2 ^ 16 then
    .ok ([taidLen] ++ id ++ BigEndian.encode 8 treeSize.toNat ++ rootHash.asBytes ++
      BigEndian.encode 8 signedAt.toNat ++ BigEndian.encode 2 signature.length ++ signature)
  else .error (.malformedSignature p1363SignatureLen signature.length)

/-- A signed checkpoint ready to publish. -/
structure SignedCheckpointObject where
  key : String
  bytes : List UInt8
  treeSize : TreeSize
deriving DecidableEq

def SignedCheckpointObject.frame (checkpoint : Checkpoint Unsigned) (signature : List UInt8) :
    Except CheckpointSignError SignedCheckpointObject := do
  let bytes ← frameSignedCheckpoint checkpoint.logId checkpoint.treeSize checkpoint.rootHash
    checkpoint.signedAt signature
  .ok ⟨checkpointObjectKey checkpoint.treeSize, bytes, checkpoint.treeSize⟩

structure RetryPolicy where
  maxRetries : UInt32
  baseBackoff : Duration
  maxBackoff : Duration

/-- The delay doubles with every retry, up to the cap. -/
def RetryPolicy.backoffFor (p : RetryPolicy) (retryIndex : ℕ) : Duration :=
  let scaled := min (p.baseBackoff.nanos * 2 ^ min retryIndex 63) (2 ^ 128 - 1)
  let capped := min scaled p.maxBackoff.nanos
  ⟨min capped (2 ^ 64 - 1)⟩

/-- Names a private key inside the HSM. -/
structure KeyHandle where
  str : String
deriving DecidableEq

/-- One call of the HSM and its answer. -/
structure SignCall where
  keyHandle : KeyHandle
  data : List UInt8
  answer : Except CloudError (List UInt8)

/-- The signer over the HSM and the clock it was given. What the HSM answers may depend on
the world, which every call and every wait may change. -/
structure Signer (World : Type) where
  hsmSign : KeyHandle → List UInt8 → World → Except CloudError (List UInt8) × World
  clockSleep : Duration → World → World
  retry : RetryPolicy

/-- A result, the calls made for it and the world after them. -/
structure Run (World α : Type) where
  result : Except CheckpointSignError α
  calls : List SignCall
  world : World

def isRetryable : CloudError → Bool
  | .transport true _ => true
  | _ => false

namespace Signer

variable {World : Type} (s : Signer World)

/-- The retry loop, after `retries` retries and the calls made so far. -/
def signWithRetry (keyHandle : KeyHandle) (input : List UInt8) (retries : ℕ)
    (calls : List SignCall) (world : World) : Run World (List UInt8) :=
  match s.hsmSign keyHandle input world with
  | (.ok signature, world) => ⟨.ok signature, calls ++ [⟨keyHandle, input, .ok signature⟩], world⟩
  | (.error error, world) =>
    let calls := calls ++ [⟨keyHandle, input, .error error⟩]
    let attempts := min (retries + 1) (2 ^ 32 - 1)
    if isRetryable error ∧ retries < s.retry.maxRetries.toNat then
      signWithRetry keyHandle input (retries + 1) calls
        (s.clockSleep (s.retry.backoffFor retries) world)
    else ⟨.error (.hsmSigningFailed attempts error), calls, world⟩
termination_by s.retry.maxRetries.toNat - retries

def signCheckpoint (keyHandle : KeyHandle) (logId : LogId) (treeSize : TreeSize)
    (rootHash : HashOutput) (signedAt : UInt64) (world : World) :
    Run World SignedCheckpointObject :=
  let checkpoint : Checkpoint Unsigned := ⟨logId, treeSize, rootHash, signedAt, ⟨⟩⟩
  match checkpoint.signatureInput with
  | .error e => ⟨.error (.input e), [], world⟩
  | .ok signingInput =>
    let run := s.signWithRetry keyHandle signingInput 0 [] world
    match run.result with
    | .error e => ⟨.error e, run.calls, run.world⟩
    | .ok signature =>
      if signature.length ≠ p1363SignatureLen then
        ⟨.error (.malformedSignature p1363SignatureLen signature.length), run.calls, run.world⟩
      else ⟨SignedCheckpointObject.frame checkpoint signature, run.calls, run.world⟩

end Signer

variable {World : Type} {s : Signer World} {logId : LogId} {treeSize : TreeSize}
  {rootHash : HashOutput} {signedAt : UInt64} {signature b : List UInt8}

/-- The two encoders write the same bytes. -/
theorem frameSignedCheckpoint_eq_ok_iff :
    frameSignedCheckpoint logId treeSize rootHash signedAt signature = .ok b ↔
      Checkpoint.serializeTlsPresentation ⟨logId, treeSize, rootHash, signedAt, ⟨⟨signature⟩⟩⟩ =
        .ok b := by
  rw [Checkpoint.serializeTlsPresentation, tlsSerializeToVec, Checkpoint.tlsSerialize_eq_ok_iff,
    frameSignedCheckpoint, Outcome.bind_eq_ok_iff]
  simp only [Outcome.mapError_eq_ok_iff, trustAnchorIdLenByte_eq_ok_iff,
    Outcome.ite_else_error_eq_ok_iff, writeTrustAnchorId_eq_ok_iff, writeOpaque_eq_ok_iff]
  constructor
  · intro h
    obtain ⟨_, ⟨hne, hid, rfl⟩, hsig, hok⟩ := h
    cases hok
    refine ⟨_, _, ⟨hne, hid, rfl⟩, ⟨hsig, rfl⟩, ?_⟩
    simp only [List.append_assoc]
    rfl
  · intro h
    obtain ⟨_, _, ⟨hne, hid, rfl⟩, ⟨hsig, rfl⟩, rfl⟩ := h
    refine ⟨_, ⟨hne, hid, rfl⟩, hsig, ?_⟩
    simp only [List.append_assoc]
    rfl

/-- Every call of the loop is about the same key and the same bytes, and the signature it
returns is the answer of the last one. -/
theorem Signer.signWithRetry_calls (keyHandle : KeyHandle) (input : List UInt8) (retries : ℕ)
    (calls : List SignCall) (world : World) :
    ∃ new, (s.signWithRetry keyHandle input retries calls world).calls = calls ++ new ∧
      (∀ call ∈ new, call.keyHandle = keyHandle ∧ call.data = input) ∧
      ∀ signature, (s.signWithRetry keyHandle input retries calls world).result = .ok signature →
        new.getLast? = some ⟨keyHandle, input, .ok signature⟩ := by
  fun_induction s.signWithRetry keyHandle input retries calls world with
  | case1 retries calls world signature world' hsign =>
    refine ⟨[⟨keyHandle, input, .ok signature⟩], rfl, by simp, ?_⟩
    intro signature' h
    cases h
    rfl
  | case2 retries calls₀ world error world' hsign calls hretry ih =>
    obtain ⟨new, hcalls, hnew, hlast⟩ := ih
    refine ⟨⟨keyHandle, input, .error error⟩ :: new, ?_, ?_, ?_⟩
    · rw [hcalls, List.append_assoc, List.singleton_append]
    · exact List.forall_mem_cons.mpr ⟨⟨rfl, rfl⟩, hnew⟩
    · intro signature h
      rw [List.getLast?_cons, hlast signature h]
      rfl
  | case3 retries calls₀ world error world' hsign calls attempts hretry =>
    refine ⟨[⟨keyHandle, input, .error error⟩], rfl, by simp, ?_⟩
    intro signature h
    cases h

/-- What a successful signing did: it asked for a signature over the signature input only, and
framed the last answer. -/
theorem Signer.signCheckpoint_eq_ok {keyHandle : KeyHandle} {world : World}
    {object : SignedCheckpointObject}
    (h : (s.signCheckpoint keyHandle logId treeSize rootHash signedAt world).result = .ok object) :
    ∃ input signature, (⟨logId, treeSize, rootHash, signedAt, ⟨⟩⟩ :
        Checkpoint Unsigned).signatureInput = .ok input ∧
      frameSignedCheckpoint logId treeSize rootHash signedAt signature = .ok object.bytes ∧
      (∀ call ∈ (s.signCheckpoint keyHandle logId treeSize rootHash signedAt world).calls,
        call.keyHandle = keyHandle ∧ call.data = input) ∧
      (s.signCheckpoint keyHandle logId treeSize rootHash signedAt world).calls.getLast? =
        some ⟨keyHandle, input, .ok signature⟩ := by
  unfold signCheckpoint at h ⊢
  cases hinput : (⟨logId, treeSize, rootHash, signedAt, ⟨⟩⟩ :
      Checkpoint Unsigned).signatureInput with
  | error e => simp [hinput] at h
  | ok input =>
    obtain ⟨new, hcalls, hnew, hlast⟩ := s.signWithRetry_calls keyHandle input 0 [] world
    cases hrun : (s.signWithRetry keyHandle input 0 [] world).result with
    | error e => simp [hinput, hrun] at h
    | ok signature =>
      simp only [hinput, hrun] at h ⊢
      split at h
      · cases h
      · obtain ⟨bytes, hframe, hok⟩ := Outcome.bind_eq_ok_iff.mp h
        cases hok
        rw [List.nil_append] at hcalls
        rw [if_neg ‹_›]
        refine ⟨input, signature, rfl, hframe, ?_, ?_⟩
        · rw [hcalls]
          exact hnew
        · rw [hcalls]
          exact hlast signature hrun

/-- The framing writes what the checkpoint serializer writes and fails when it fails, so that
the object parses to the fields it was framed from; and the signature in it is the HSM's answer
for the signature input of the checkpoint that the object parses to. -/
theorem framing_agrees :
    (∀ logId treeSize rootHash signedAt signature,
      ((∃ e, frameSignedCheckpoint logId treeSize rootHash signedAt signature = .error e) ↔
        ∃ e, Checkpoint.serializeTlsPresentation
          ⟨logId, treeSize, rootHash, signedAt, ⟨⟨signature⟩⟩⟩ = .error e) ∧
      ∀ b, frameSignedCheckpoint logId treeSize rootHash signedAt signature = .ok b →
        Checkpoint.serializeTlsPresentation
          ⟨logId, treeSize, rootHash, signedAt, ⟨⟨signature⟩⟩⟩ = .ok b ∧
        Checkpoint.parseTlsPresentation b =
          .ok ⟨logId, treeSize, rootHash, signedAt, ⟨⟨signature⟩⟩⟩) ∧
    ∀ (World : Type) (s : Signer World) keyHandle logId treeSize rootHash signedAt world object,
      (s.signCheckpoint keyHandle logId treeSize rootHash signedAt world).result = .ok object →
        ∃ c input, Checkpoint.parseTlsPresentation object.bytes = .ok c ∧
          (c.logId = logId ∧ c.treeSize = treeSize ∧ c.rootHash = rootHash ∧
            c.signedAt = signedAt) ∧
          c.signatureInput = .ok input ∧
          (∀ call ∈ (s.signCheckpoint keyHandle logId treeSize rootHash signedAt world).calls,
            call.keyHandle = keyHandle ∧ call.data = input) ∧
          (s.signCheckpoint keyHandle logId treeSize rootHash signedAt world).calls.getLast? =
            some ⟨keyHandle, input, .ok c.state.signature.bytes⟩ := by
  refine ⟨?_, ?_⟩
  · intro logId treeSize rootHash signedAt signature
    refine ⟨?_, ?_⟩
    · simp only [← Outcome.forall_ne_ok_iff, ne_eq, frameSignedCheckpoint_eq_ok_iff]
    · intro b hb
      have hser := frameSignedCheckpoint_eq_ok_iff.mp hb
      exact ⟨hser, Checkpoint.parseTlsPresentation_eq_ok_iff.mpr hser⟩
  · intro World s keyHandle logId treeSize rootHash signedAt world object h
    obtain ⟨input, signature, hinput, hframe, hcalls, hlast⟩ := s.signCheckpoint_eq_ok h
    refine ⟨⟨logId, treeSize, rootHash, signedAt, ⟨⟨signature⟩⟩⟩, input, ?_, ⟨rfl, rfl, rfl, rfl⟩,
      hinput, hcalls, hlast⟩
    exact Checkpoint.parseTlsPresentation_eq_ok_iff.mpr (frameSignedCheckpoint_eq_ok_iff.mp hframe)

/-- A signer whose HSM always gives the same signature. -/
def constantSigner : Signer Unit :=
  ⟨fun _ _ world => (.ok (List.replicate 64 7), world), fun _ world => world,
    ⟨5, ⟨50000000⟩, ⟨5000000000⟩⟩⟩

def sampleObject : SignedCheckpointObject where
  key := "checkpoints/0000000000000002.signed"
  bytes := [2, 99, 97] ++ [0, 0, 0, 0, 0, 0, 0, 2] ++ List.replicate 32 17 ++
    [0, 0, 0, 0, 0, 0, 0, 9] ++ [0, 64] ++ List.replicate 64 7
  treeSize := 2

theorem framing_agrees_constant :
    ∃ c : Checkpoint Signed, Checkpoint.parseTlsPresentation sampleObject.bytes = .ok c ∧
      c.treeSize = 2 := by
  have hsign : (constantSigner.signCheckpoint ⟨"key"⟩ ⟨"ca", by decide⟩ 2
      ⟨⟨List.replicate 32 17, rfl⟩⟩ 9 ()).result = .ok sampleObject := by
    unfold Signer.signCheckpoint Signer.signWithRetry
    decide +kernel
  obtain ⟨c, -, hparse, ⟨-, hsize, -⟩, -⟩ := framing_agrees.2 Unit constantSigner ⟨"key"⟩
    ⟨"ca", by decide⟩ 2 ⟨⟨List.replicate 32 17, rfl⟩⟩ 9 () sampleObject hsign
  exact ⟨c, hparse, hsize⟩

end CheckpointSigner
