import MtcCa.LogEntry.Canonical

/-! The subject of a certificate and the hash that stands for it in the log
(`crates/mtc/src/log_entry/subject.rs`). -/
namespace Mtc

open TlsReader

/-- The one error of building a subject. -/
inductive SubjectError where
  | emptyPublicKey
deriving DecidableEq

/-- A signature scheme and a public key. -/
structure TlsSubjectInfo where
  signatureScheme : UInt16
  publicKey : List UInt8
  ne_nil : publicKey ≠ []

namespace TlsSubjectInfo

def new (signatureScheme : UInt16) (publicKey : List UInt8) : Except SubjectError TlsSubjectInfo :=
  if h : publicKey = [] then .error .emptyPublicKey else .ok ⟨signatureScheme, publicKey, h⟩

instance : TlsSerialize TlsSubjectInfo where
  tlsSerialize info := do
    let scheme ← writeU16 info.signatureScheme
    let key ← writeOpaqueU16 info.publicKey
    .ok (scheme ++ key)

instance : TlsParse TlsSubjectInfo where
  tlsParse reader := do
    let (signatureScheme, reader) ← reader.readU16
    let (publicKey, reader) ← reader.readOpaqueU16
    if h : publicKey = [] then
      .error (.invalidValue reader.position "TLS subject public_key must be at least one byte")
    else .ok (⟨signatureScheme, publicKey, h⟩, reader)

end TlsSubjectInfo

/-- The hash of a serialized subject; nothing sets it apart from the hashes of the tree. -/
def SubjectInfoHash.ofSubjectInfo (H : Hasher) (subjectInfo : List UInt8) : SubjectInfoHash :=
  ⟨H.digest [subjectInfo]⟩

def TlsSubjectInfo.subjectInfoHash (H : Hasher) (info : TlsSubjectInfo) :
    Except WriteError SubjectInfoHash := do
  let bytes ← tlsSerializeToVec info
  .ok (.ofSubjectInfo H bytes)

/-- The parser accepts exactly the encodings of subjects with a key. -/
theorem canonical_tlsSubjectInfo : Canonical (fun _ : TlsSubjectInfo => True) 0 := by
  intro r r' info hdepth
  refine Outcome.bind_eq_ok_iff.trans ?_
  rw [true_and]
  constructor
  · rintro ⟨⟨scheme, r₁⟩, hscheme, hrest⟩
    obtain ⟨⟨publicKey, r₂⟩, hkey, hrest⟩ := Outcome.bind_eq_ok_iff.mp hrest
    simp only at hrest
    split at hrest
    · cases hrest
    · cases hrest
      obtain ⟨b, hb, h₂⟩ := (readOpaque_eq_ok_iff readsLenU16).mp hkey
      refine ⟨_, ?_, (readU16_eq_ok_iff.mp hscheme).trans h₂⟩
      exact Outcome.bind_eq_ok_iff.mpr ⟨_, rfl, Outcome.bind_eq_ok_iff.mpr ⟨b, hb, rfl⟩⟩
  · rintro ⟨b, hb, h⟩
    obtain ⟨b₁, hb₁, hb⟩ := Outcome.bind_eq_ok_iff.mp hb
    obtain ⟨b₂, hb₂, hok⟩ := Outcome.bind_eq_ok_iff.mp hb
    cases hb₁
    cases hok
    obtain ⟨r₁, h₁, h₂⟩ := consumes_append.mp h
    refine ⟨(info.signatureScheme, r₁), readU16_eq_ok_iff.mpr h₁, ?_⟩
    refine Outcome.bind_eq_ok_iff.mpr ⟨(info.publicKey, r'),
      (readOpaque_eq_ok_iff readsLenU16).mpr ⟨b₂, hb₂, h₂⟩, ?_⟩
    exact dif_neg info.ne_nil

theorem tlsSubjectInfo_parse_iff {b : List UInt8} {info : TlsSubjectInfo} :
    tlsParseExact b = .ok info ↔ tlsSerializeToVec info = .ok b :=
  (tlsParseExact_eq_ok_iff canonical_tlsSubjectInfo (by decide)).trans (and_iff_right trivial)

end Mtc
