import MtcCa.LogEntry.Subject
import MtcCa.Verify.NoSplitView

/-! What a party learns about a subject from a logged entry: the entry holds a hash only
(`crates/mtc/src/log_entry/subject.rs`), the subject itself is presented beside it. -/
namespace Mtc

open Transition (Trace)

/-- A subject is presented as bytes that parse, and that the entry has the hash of. -/
structure Presents (H : Hasher) (entry : TbsCertificateLogEntry) (bytes : List UInt8)
    (info : TlsSubjectInfo) : Prop where
  parsed : tlsParseExact bytes = .ok info
  hashed : SubjectInfoHash.ofSubjectInfo H bytes = entry.subjectInfoHash

variable {H : Hasher} {p : P256} {S : Set (List UInt8)} {c c' : Checkpoint Signed}
  {as : List (Advance H)} {entry entry' : TbsCertificateLogEntry} {proof proof' : InclusionProof}
  {key key' : VerifyingKey} {v v' : Verified} {bytes bytes' : List UInt8}
  {info info' : TlsSubjectInfo}

/-- What is presented is what the issuer hashes into the entry. -/
theorem presents_iff : Presents H entry bytes info ↔
    tlsSerializeToVec info = .ok bytes ∧ info.subjectInfoHash H = .ok entry.subjectInfoHash := by
  constructor
  · rintro ⟨hparsed, hhashed⟩
    have hbytes := tlsSubjectInfo_parse_iff.mp hparsed
    exact ⟨hbytes, Outcome.bind_eq_ok_iff.mpr ⟨bytes, hbytes, congrArg _ hhashed⟩⟩
  · rintro ⟨hbytes, hhash⟩
    obtain ⟨b, hb, hok⟩ := Outcome.bind_eq_ok_iff.mp hhash
    obtain rfl := Except.ok.inj (hbytes.symm.trans hb)
    exact ⟨tlsSubjectInfo_parse_iff.mpr hbytes, Except.ok.inj hok⟩

/-- One entry has one subject. -/
theorem Presents.unique (h : Presents H entry bytes info) (h' : Presents H entry bytes' info')
    (hcf : H.CollisionFreeOn S) (hmem : bytes ∈ S) (hmem' : bytes' ∈ S) :
    bytes = bytes' ∧ info = info' := by
  have hhash := congrArg SubjectInfoHash.hash (h.hashed.trans h'.hashed.symm)
  have hflat : ∀ b : List UInt8, [b].flatten = b := fun _ => List.flatten_singleton
  have heq := hcf [bytes] [bytes'] (by rwa [hflat]) (by rwa [hflat]) hhash
  rw [hflat, hflat] at heq
  subst heq
  exact ⟨rfl, Except.ok.inj (h.parsed.symm.trans h'.parsed)⟩

/-- One index of a log binds one signature scheme and public key to one list of claims: whoever
is shown a certificate entry there, and a subject for it, is shown the same. -/
theorem logged_key_unique (h : Trace (Follows H) c as c')
    (hv : verifyInclusion H p (.certificate entry) proof c key = .ok v)
    (hv' : verifyInclusion H p (.certificate entry') proof' c' key' = .ok v')
    (hindex : v.leafIndex = v'.leafIndex) (hinfo : Presents H entry bytes info)
    (hinfo' : Presents H entry' bytes' info')
    (hcf : H.CollisionFreeOn {b | (∃ a ∈ as, b ∈ a.inputs) ∨
      b ∈ inclusionInputs H (.certificate entry) proof ∨
      b ∈ inclusionInputs H (.certificate entry') proof' ∨ b = bytes ∨ b = bytes'}) :
    entry.claims = entry'.claims ∧ bytes = bytes' ∧ info = info' := by
  have hentry := entry_unique h hv hv' hindex hcf (fun a ha _ hb => Or.inl ⟨a, ha, hb⟩)
    (fun _ hb => Or.inr (Or.inl hb)) (fun _ hb => Or.inr (Or.inr (Or.inl hb)))
  obtain rfl := LogEntry.certificate.inj hentry
  exact ⟨rfl, hinfo.unique hinfo' hcf (Or.inr (Or.inr (Or.inr (Or.inl rfl))))
    (Or.inr (Or.inr (Or.inr (Or.inr rfl))))⟩

section sample

/-- An ES256 key of two bytes. -/
def sampleSubject : TlsSubjectInfo := ⟨0x0403, [4, 9], by decide⟩

def sampleSubjectBytes : List UInt8 := [4, 3, 0, 2, 4, 9]

def subjectEntry : TbsCertificateLogEntry :=
  ⟨.tls, .ofSubjectInfo residueHasher sampleSubjectBytes, [.ipv4 [⟨⟨[198, 51, 100, 7], rfl⟩⟩]]⟩

def subjectLeaf : LeafBytes :=
  ⟨[0, 1, 0, 0] ++ subjectEntry.subjectInfoHash.hash.asBytes ++
    [0, 10, 0, 2, 0, 6, 0, 4, 198, 51, 100, 7]⟩

/-- The checkpoint of a log with a root, and the message its signature is for. -/
def subjectCheckpoint (treeSize : UInt64) (rootHash : HashOutput) : Checkpoint Signed where
  logId := ⟨"log-a", logA_ne_empty⟩
  treeSize := treeSize
  rootHash := rootHash
  signedAt := 0
  state := ⟨⟨List.replicate 64 7⟩⟩

def subjectMessage (treeSize : UInt8) (rootHash : HashOutput) : List UInt8 :=
  subtreeSignatureLabel ++ [5, 108, 111, 103, 45, 97, 5, 108, 111, 103, 45, 97] ++
    List.replicate 15 0 ++ [treeSize] ++ rootHash.asBytes

/-- The root when the entry is the whole log, and after the null entry. -/
def subjectRoot : HashOutput := hashLeaf residueHasher subjectLeaf.bytes

def laterRoot : HashOutput := hashNode residueHasher subjectRoot (hashLeaf residueHasher [0, 0])

def laterAdvance : Advance residueHasher where
  old := subjectCheckpoint 1 subjectRoot
  new := subjectCheckpoint 2 laterRoot
  path := [hashLeaf residueHasher [0, 0]]
  accepted := by decide +kernel

def subjectP256 : P256 := signedP256 [subjectMessage 1 subjectRoot, subjectMessage 2 laterRoot]

/-- One party sees the subject under the first checkpoint, one under the second. -/
theorem logged_key_unique_sample :
    verifyInclusion residueHasher subjectP256 (.certificate subjectEntry) ⟨1, 0, []⟩
        laterAdvance.old ⟨.ecdsaP256Sha256, []⟩ =
      .ok ⟨laterAdvance.old.logId, 1, 0, subjectRoot⟩ ∧
    verifyInclusion residueHasher subjectP256 (.certificate subjectEntry)
        ⟨2, 0, [hashLeaf residueHasher [0, 0]]⟩ laterAdvance.new ⟨.ecdsaP256Sha256, []⟩ =
      .ok ⟨laterAdvance.new.logId, 2, 0, laterRoot⟩ ∧
    Presents residueHasher subjectEntry sampleSubjectBytes sampleSubject ∧
    sampleSubject = sampleSubject := by
  have hv : verifyInclusion residueHasher subjectP256 (.certificate subjectEntry) ⟨1, 0, []⟩
      laterAdvance.old ⟨.ecdsaP256Sha256, []⟩ =
        .ok ⟨laterAdvance.old.logId, 1, 0, subjectRoot⟩ := by
    decide +kernel
  have hv' : verifyInclusion residueHasher subjectP256 (.certificate subjectEntry)
      ⟨2, 0, [hashLeaf residueHasher [0, 0]]⟩ laterAdvance.new ⟨.ecdsaP256Sha256, []⟩ =
        .ok ⟨laterAdvance.new.logId, 2, 0, laterRoot⟩ := by
    decide +kernel
  have hinfo : Presents residueHasher subjectEntry sampleSubjectBytes sampleSubject :=
    ⟨rfl, rfl⟩
  have hcf : residueHasher.CollisionFreeOn {b | b ∈ laterAdvance.inputs ++
      (inclusionInputs residueHasher (.certificate subjectEntry) ⟨1, 0, []⟩ ++
        (inclusionInputs residueHasher (.certificate subjectEntry)
          ⟨2, 0, [hashLeaf residueHasher [0, 0]]⟩ ++ [sampleSubjectBytes]))} :=
    residueHasher_collisionFreeOn (by decide +kernel)
  refine ⟨hv, hv', hinfo,
    (logged_key_unique (.snoc .refl ⟨rfl, rfl⟩) hv hv' rfl hinfo hinfo ?_).2.2⟩
  simpa using hcf

end sample

end Mtc
