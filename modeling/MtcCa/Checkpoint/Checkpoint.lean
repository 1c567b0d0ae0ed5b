import MtcCa.Wire.Codec

/-! Checkpoints: the bytes a cosigner signs, the signature schemes, and the wire form
(`crates/mtc/src/checkpoint/mod.rs`, `crates/mtc/src/checkpoint/signature_input.rs`,
`crates/mtc/src/signing/mod.rs`, `crates/mtc/src/signing/ecdsa_p256.rs`). -/
namespace Mtc

/-- The ASCII string `mtc-subtree/v1`, a newline and a zero byte. -/
def subtreeSignatureLabel : List UInt8 :=
  [0x6d, 0x74, 0x63, 0x2d, 0x73, 0x75, 0x62, 0x74, 0x72, 0x65, 0x65, 0x2f, 0x76, 0x31, 0x0a, 0x00]

/-- A trust-anchor identifier was empty or longer than 255 bytes. -/
structure TrustAnchorIdError where
  actual : ℕ
deriving DecidableEq

def TrustAnchorIdError.message (e : TrustAnchorIdError) : String :=
  "trust-anchor id is " ++ toString e.actual ++ " byte(s); a TrustAnchorID must be 1..=255 " ++
    "(draft §5.4.1 opaque<1..2^8-1>)"

/-- The length prefix of an identifier of 1 to 255 bytes. -/
def trustAnchorIdLenByte (id : List UInt8) : Except TrustAnchorIdError UInt8 :=
  if id.isEmpty then .error ⟨0⟩
  else if id.length < 256 then .ok (UInt8.ofNat id.length)
  else .error ⟨id.length⟩

def writeTrustAnchorId (id : List UInt8) : Except WriteError (List UInt8) := do
  let len ← (trustAnchorIdLenByte id).mapError (fun e => .invalidData e.message)
  let lenBytes ← writeBytes [len]
  let idBytes ← writeBytes id
  .ok (lenBytes ++ idBytes)

/-- The message a cosigner signs over the subtree `[start, stop)` of a log. -/
def subtreeSignatureInput (cosignerId logId : List UInt8) (start stop : UInt64)
    (hash : HashOutput) : Except TrustAnchorIdError (List UInt8) := do
  let cosignerLen ← trustAnchorIdLenByte cosignerId
  let logLen ← trustAnchorIdLenByte logId
  .ok (subtreeSignatureLabel ++ [cosignerLen] ++ cosignerId ++ [logLen] ++ logId ++
    BigEndian.encode 8 start.toNat ++ BigEndian.encode 8 stop.toNat ++ hash.asBytes)

inductive SignatureAlgorithm where
  | ecdsaP256Sha256
  | ecdsaP384Sha384
  | ed25519
  | mlDsa44
  | mlDsa65
  | mlDsa87
deriving DecidableEq

structure Signature where
  bytes : List UInt8
deriving DecidableEq

structure VerifyingKey where
  algorithm : SignatureAlgorithm
  spkiDer : List UInt8
deriving DecidableEq

structure SigningKey where
  algorithm : SignatureAlgorithm
  secret : List UInt8
deriving DecidableEq

inductive KeyRejected where
  | algorithmMismatch (expected actual : SignatureAlgorithm)
  | wrongLength (expected actual : ℕ)
  | invalid (algorithm : SignatureAlgorithm)
deriving DecidableEq

inductive SignError where
  | key (e : KeyRejected)
deriving DecidableEq

inductive SignatureVerifyError where
  | algorithmMismatch (expected actual : SignatureAlgorithm)
  | malformedKey
  | malformedSignature
  | badSignature
deriving DecidableEq

/-- A signature algorithm of the registry. -/
structure SignatureScheme where
  algorithm : SignatureAlgorithm
  sign : SigningKey → List UInt8 → Except SignError Signature
  verify : VerifyingKey → List UInt8 → Signature → Except SignatureVerifyError Unit

/-- The operations of the curve library that the ECDSA scheme calls: decoding keys and
signatures, signing a message and checking a signature. -/
structure P256 where
  SecretKey : Type
  PublicKey : Type
  Sig : Type
  secretKeyFromSlice : List UInt8 → Option SecretKey
  publicKeyFromDer : List UInt8 → Option PublicKey
  sigFromSlice : List UInt8 → Option Sig
  trySign : SecretKey → List UInt8 → Option Sig
  sigToBytes : Sig → List UInt8
  verify : PublicKey → List UInt8 → Sig → Bool

namespace EcdsaP256

variable (p : P256)

def algorithm : SignatureAlgorithm := .ecdsaP256Sha256

/-- The size of an `r || s` signature. -/
def p1363Len : ℕ := 64

def sign (key : SigningKey) (message : List UInt8) : Except SignError Signature :=
  if key.algorithm ≠ algorithm then
    .error (.key (.algorithmMismatch algorithm key.algorithm))
  else
    match p.secretKeyFromSlice key.secret with
    | none => .error (.key (.invalid algorithm))
    | some signing =>
      match p.trySign signing message with
      | none => .error (.key (.invalid algorithm))
      | some signature => .ok ⟨p.sigToBytes signature⟩

def parseVerifyingKey (key : VerifyingKey) : Except SignatureVerifyError p.PublicKey :=
  if key.algorithm ≠ algorithm then .error (.algorithmMismatch algorithm key.algorithm)
  else
    match p.publicKeyFromDer key.spkiDer with
    | none => .error .malformedKey
    | some verifying => .ok verifying

def verify (key : VerifyingKey) (message : List UInt8) (signature : Signature) :
    Except SignatureVerifyError Unit := do
  let verifying ← parseVerifyingKey p key
  if signature.bytes.length ≠ p1363Len then .error .malformedSignature
  else
    match p.sigFromSlice signature.bytes with
    | none => .error .malformedSignature
    | some parsed => if p.verify verifying message parsed then .ok () else .error .badSignature

end EcdsaP256

def ecdsaP256 (p : P256) : SignatureScheme :=
  ⟨EcdsaP256.algorithm, EcdsaP256.sign p, EcdsaP256.verify p⟩

/-- A checkpoint that carries no signature. -/
structure Unsigned where
deriving DecidableEq

/-- A checkpoint that carries a signature. -/
structure Signed where
  signature : Signature
deriving DecidableEq

/-- A commitment to the log, in one of the two states. -/
structure Checkpoint (State : Type) where
  logId : LogId
  treeSize : TreeSize
  rootHash : HashOutput
  /-- Seconds since the Unix epoch; not covered by the signature. -/
  signedAt : UInt64
  state : State
deriving DecidableEq

inductive CheckpointSignError where
  | input (e : TrustAnchorIdError)
  | sign (e : SignError)
deriving DecidableEq

inductive CheckpointVerifyError where
  | input (e : TrustAnchorIdError)
  | verify (e : SignatureVerifyError)
deriving DecidableEq

inductive CheckpointParseError where
  | wire (e : WireError)
  | trustAnchorIdEmpty (offset : ℕ)
  | logIdNotUtf8 (offset : ℕ)
deriving DecidableEq

namespace Checkpoint

/-- The message a checkpoint is signed over: the subtree `[0, treeSize)`, the log being its
own cosigner. -/
def signatureInput {State : Type} (c : Checkpoint State) :
    Except TrustAnchorIdError (List UInt8) :=
  let id := c.logId.asBytes
  subtreeSignatureInput id id 0 c.treeSize c.rootHash

def sign (c : Checkpoint Unsigned) (scheme : SignatureScheme) (key : SigningKey) :
    Except CheckpointSignError (Checkpoint Signed) := do
  let input ← c.signatureInput.mapError .input
  let signature ← (scheme.sign key input).mapError .sign
  .ok ⟨c.logId, c.treeSize, c.rootHash, c.signedAt, ⟨signature⟩⟩

def verify (c : Checkpoint Signed) (scheme : SignatureScheme) (key : VerifyingKey) :
    Except CheckpointVerifyError Unit := do
  let input ← c.signatureInput.mapError .input
  (scheme.verify key input c.state.signature).mapError .verify

end Checkpoint

def writeU64 (value : UInt64) : Except WriteError (List UInt8) :=
  writeBytes (BigEndian.encode 8 value.toNat)

def readU64 (reader : TlsReader) : Except WireError (UInt64 × TlsReader) := do
  let (b, reader) ← reader.readArray 8
  .ok (UInt64.ofNat (BigEndian.decode b.toList), reader)

instance : TlsSerialize (Checkpoint Signed) where
  tlsSerialize c := do
    let logId ← writeTrustAnchorId c.logId.asBytes
    let treeSize ← writeU64 c.treeSize
    let rootHash ← writeBytes c.rootHash.asBytes
    let signedAt ← writeU64 c.signedAt
    let signature ← writeOpaqueU16 c.state.signature.bytes
    .ok (logId ++ treeSize ++ rootHash ++ signedAt ++ signature)

/-- A byte string as text. -/
def fromUtf8 (bytes : List UInt8) : Option String := String.fromUTF8? ⟨bytes.toArray⟩

/-- An identifier of at least one byte, as the name of a log. -/
def readLogId (reader : TlsReader) : Except CheckpointParseError (LogId × TlsReader) := do
  let offset := reader.position
  let (bytes, reader) ← reader.readOpaqueU8.mapError .wire
  if bytes.isEmpty then .error (.trustAnchorIdEmpty offset)
  else
    match fromUtf8 bytes with
    | none => .error (.logIdNotUtf8 offset)
    | some text =>
      let logId ← (LogId.new text).mapError (fun _ => .trustAnchorIdEmpty offset)
      .ok (logId, reader)

namespace Checkpoint

def serializeTlsPresentation (c : Checkpoint Signed) : Except WriteError (List UInt8) :=
  tlsSerializeToVec c

def parseFrom (reader : TlsReader) :
    Except CheckpointParseError (Checkpoint Signed × TlsReader) := do
  let (logId, reader) ← readLogId reader
  let (treeSize, reader) ← (readU64 reader).mapError .wire
  let (rootHash, reader) ← (reader.readArray 32).mapError .wire
  let (signedAt, reader) ← (readU64 reader).mapError .wire
  let (signature, reader) ← reader.readOpaqueU16.mapError .wire
  .ok (⟨logId, treeSize, ⟨rootHash⟩, signedAt, ⟨⟨signature⟩⟩⟩, reader)

def parseTlsPresentation (bytes : List UInt8) :
    Except CheckpointParseError (Checkpoint Signed) := do
  let (checkpoint, reader) ← parseFrom (TlsReader.new bytes)
  reader.finish.mapError .wire
  .ok checkpoint

end Checkpoint

end Mtc
