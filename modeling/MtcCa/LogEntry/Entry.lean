import MtcCa.LogEntry.Claim
import MtcCa.Tree.Builder

/-! Log entries and their leaf bytes (`crates/mtc/src/log_entry/mod.rs`,
`crates/mtc/src/log_entry/entry.rs`, `crates/mtc/src/log_entry/subject.rs`). -/
namespace Mtc

inductive SubjectType where
  | tls
deriving DecidableEq

namespace SubjectType

def code : SubjectType → UInt16
  | tls => 0

def fromCode (code : UInt16) : Option SubjectType :=
  if code = 0 then some tls else none

instance : TlsSerialize SubjectType := ⟨fun t => writeU16 t.code⟩

instance : TlsParse SubjectType where
  tlsParse reader := do
    let (code, reader) ← reader.readU16
    match fromCode code with
    | some t => .ok (t, reader)
    | none => .error (.invalidValue reader.position "unknown SubjectType codepoint")

end SubjectType

/-- The commitment to a subject's public key. -/
structure SubjectInfoHash where
  hash : HashOutput
deriving DecidableEq

instance : TlsSerialize SubjectInfoHash := ⟨fun h => tlsSerialize h.hash.bytes⟩

instance : TlsParse SubjectInfoHash where
  tlsParse reader := do
    let (bytes, reader) ← reader.readArray 32
    .ok (⟨⟨bytes⟩⟩, reader)

/-- What one certificate contributes to the log. -/
structure TbsCertificateLogEntry where
  subjectType : SubjectType
  subjectInfoHash : SubjectInfoHash
  claims : List Claim
deriving DecidableEq

instance : TlsSerialize TbsCertificateLogEntry where
  tlsSerialize entry := do
    let subjectType ← tlsSerialize entry.subjectType
    let subjectInfoHash ← tlsSerialize entry.subjectInfoHash
    let claims ← writeVectorU16 entry.claims
    .ok (subjectType ++ subjectInfoHash ++ claims)

instance : TlsParse TbsCertificateLogEntry where
  tlsParse reader := do
    let (subjectType, reader) ← tlsParse reader
    let (subjectInfoHash, reader) ← tlsParse reader
    let (claims, reader) ← reader.readVectorU16
    .ok (⟨subjectType, subjectInfoHash, claims⟩, reader)

def nullEntryType : UInt16 := 0

def tbsCertEntryType : UInt16 := 1

/-- The content of one leaf. -/
inductive LogEntry where
  | null
  | certificate (entry : TbsCertificateLogEntry)
deriving DecidableEq

instance : TlsSerialize LogEntry where
  tlsSerialize
    | .null => writeU16 nullEntryType
    | .certificate entry => do
      let entryType ← writeU16 tbsCertEntryType
      let body ← tlsSerialize entry
      .ok (entryType ++ body)

instance : TlsParse LogEntry where
  tlsParse reader := do
    let (entryType, reader) ← reader.readU16
    if entryType = nullEntryType then .ok (.null, reader)
    else if entryType = tbsCertEntryType then
      let (entry, reader) ← tlsParse reader
      .ok (.certificate entry, reader)
    else .error (.invalidValue reader.position "unknown MerkleTreeCertEntry type")

/-- The bytes an entry commits as a leaf. -/
def LogEntry.leafBytes (entry : LogEntry) : Except WriteError LeafBytes := do
  let bytes ← tlsSerializeToVec entry
  .ok ⟨bytes⟩

def LogEntry.leafHash (H : Hasher) (entry : LogEntry) : Except WriteError HashOutput := do
  let leaf ← entry.leafBytes
  .ok (hashLeaf H leaf.bytes)

end Mtc
