import MtcCa.LogEntry.Commitment

/-! Which entries the serializer writes although the parser rejects the bytes: the builder and
the public variants of `Claim` take empty lists (`crates/mtc/src/log_entry/entry.rs`,
`crates/mtc/src/log_entry/claim.rs`). -/
namespace Mtc

/-- Typestate markers of the fields that are not set. -/
inductive NoSubjectType where
  | unset

inductive NoSubjectInfoHash where
  | unset

/-- The builder of an entry; a setter replaces the marker of its field. -/
structure TbsCertificateLogEntryBuilder (St Sh : Type) where
  subjectType : St
  subjectInfoHash : Sh
  claims : List Claim

namespace TbsCertificateLogEntryBuilder

variable {St Sh : Type}

def new : TbsCertificateLogEntryBuilder NoSubjectType NoSubjectInfoHash := ⟨.unset, .unset, []⟩

/-- Appends one claim, with no check of it. -/
def withClaim (builder : TbsCertificateLogEntryBuilder St Sh) (claim : Claim) :
    TbsCertificateLogEntryBuilder St Sh :=
  { builder with claims := builder.claims ++ [claim] }

def withClaims (builder : TbsCertificateLogEntryBuilder St Sh) (claims : List Claim) :
    TbsCertificateLogEntryBuilder St Sh :=
  { builder with claims := builder.claims ++ claims }

def withSubjectType (builder : TbsCertificateLogEntryBuilder NoSubjectType Sh)
    (subjectType : SubjectType) : TbsCertificateLogEntryBuilder SubjectType Sh :=
  ⟨subjectType, builder.subjectInfoHash, builder.claims⟩

def withSubjectInfoHash (builder : TbsCertificateLogEntryBuilder St NoSubjectInfoHash)
    (subjectInfoHash : SubjectInfoHash) : TbsCertificateLogEntryBuilder St SubjectInfoHash :=
  ⟨builder.subjectType, subjectInfoHash, builder.claims⟩

def build (builder : TbsCertificateLogEntryBuilder SubjectType SubjectInfoHash) :
    TbsCertificateLogEntry :=
  ⟨builder.subjectType, builder.subjectInfoHash, builder.claims⟩

/-- Every entry is built, whatever its claims are. -/
theorem build_claims (entry : TbsCertificateLogEntry) :
    (((new.withSubjectType entry.subjectType).withSubjectInfoHash
      entry.subjectInfoHash).withClaims entry.claims).build = entry := rfl

end TbsCertificateLogEntryBuilder

/-- What a write gives: something exactly when the value fits, and then `size` bytes. -/
structure Writes (out : Except WriteError (List UInt8)) (fits : Prop) (size : ℕ) : Prop where
  fits_of_ok : ∀ {b}, out = .ok b → fits
  exists_ok : fits → ∃ b, out = .ok b
  length : ∀ {b}, out = .ok b → b.length = size

section writes

variable {α : Type} {out : Except WriteError (List UInt8)} {fits fits' : Prop} {size size' w : ℕ}

theorem Writes.congr (h : Writes out fits size) (hfits : fits ↔ fits') (hsize : size = size') :
    Writes out fits' size' := by
  obtain rfl : fits = fits' := propext hfits
  exact hsize ▸ h

theorem writes_bytes (b : List UInt8) : Writes (.ok b) True b.length where
  fits_of_ok _ := trivial
  exists_ok _ := ⟨b, rfl⟩
  length h := by cases h; rfl

/-- Behind a length prefix fits what fits without one and is short enough for the prefix. -/
theorem Writes.behind (h : Writes out fits size) :
    Writes (out >>= writeOpaque w) (fits ∧ size < 256 ^ w) (w + size) where
  fits_of_ok hb := by
    obtain ⟨body, hbody, hout⟩ := Outcome.bind_eq_ok_iff.mp hb
    obtain ⟨hlt, -⟩ := writeOpaque_eq_ok_iff.mp hout
    exact ⟨h.fits_of_ok hbody, h.length hbody ▸ hlt⟩
  exists_ok := by
    rintro ⟨hfits, hlt⟩
    obtain ⟨body, hbody⟩ := h.exists_ok hfits
    refine ⟨_, Outcome.bind_eq_ok_iff.mpr ⟨body, hbody, writeOpaque_eq_ok_iff.mpr ⟨?_, rfl⟩⟩⟩
    rwa [h.length hbody]
  length hb := by
    obtain ⟨body, hbody, hout⟩ := Outcome.bind_eq_ok_iff.mp hb
    obtain ⟨-, rfl⟩ := writeOpaque_eq_ok_iff.mp hout
    rw [List.length_append, BigEndian.length_encode, h.length hbody]

/-- A write after fixed bytes. -/
theorem Writes.after (h : Writes out fits size) (front : List UInt8) :
    Writes (do
      let body ← out
      .ok (front ++ body)) fits (front.length + size) where
  fits_of_ok hb := by
    obtain ⟨body, hbody, -⟩ := Outcome.bind_eq_ok_iff.mp hb
    exact h.fits_of_ok hbody
  exists_ok hfits := by
    obtain ⟨body, hbody⟩ := h.exists_ok hfits
    exact ⟨_, Outcome.bind_eq_ok_iff.mpr ⟨body, hbody, rfl⟩⟩
  length hb := by
    obtain ⟨body, hbody, hok⟩ := Outcome.bind_eq_ok_iff.mp hb
    cases hok
    rw [List.length_append, h.length hbody]

variable [TlsSerialize α] {itemFits : α → Prop} {itemSize : α → ℕ}

theorem writes_items (h : ∀ v : α, Writes (tlsSerialize v) (itemFits v) (itemSize v))
    (items : List α) :
    Writes (serializeItems items) (∀ v ∈ items, itemFits v) (items.map itemSize).sum := by
  induction items with
  | nil => exact (writes_bytes []).congr (by simp) rfl
  | cons item items ih =>
    refine ⟨?_, ?_, ?_⟩
    · intro b hb
      obtain ⟨b₁, b₂, hb₁, hb₂, -⟩ := serializeItems_cons_eq_ok_iff.mp hb
      exact List.forall_mem_cons.mpr ⟨(h item).fits_of_ok hb₁, ih.fits_of_ok hb₂⟩
    · intro hall
      obtain ⟨hitem, hitems⟩ := List.forall_mem_cons.mp hall
      obtain ⟨b₁, hb₁⟩ := (h item).exists_ok hitem
      obtain ⟨b₂, hb₂⟩ := ih.exists_ok hitems
      exact ⟨_, serializeItems_cons_eq_ok_iff.mpr ⟨b₁, b₂, hb₁, hb₂, rfl⟩⟩
    · intro b hb
      obtain ⟨b₁, b₂, hb₁, hb₂, rfl⟩ := serializeItems_cons_eq_ok_iff.mp hb
      rw [List.length_append, (h item).length hb₁, ih.length hb₂, List.map_cons, List.sum_cons]

theorem writes_vector (h : ∀ v : α, Writes (tlsSerialize v) (itemFits v) (itemSize v))
    (items : List α) :
    Writes (writeVector w items) ((∀ v ∈ items, itemFits v) ∧ (items.map itemSize).sum < 256 ^ w)
      (w + (items.map itemSize).sum) :=
  (writes_items h items).behind

end writes

def DnsName.wireLen (name : DnsName) : ℕ := 1 + name.bytes.length

theorem writes_dnsName (name : DnsName) : Writes (tlsSerialize name) True name.wireLen := by
  refine (writes_bytes name.bytes).behind.congr ?_ rfl
  exact iff_of_true ⟨trivial, Nat.lt_succ_of_le name.length_le⟩ trivial

theorem writes_names (names : List DnsName) :
    Writes (writeVectorU16 names) ((names.map DnsName.wireLen).sum < 2 ^ 16)
      (2 + (names.map DnsName.wireLen).sum) :=
  (writes_vector writes_dnsName names).congr (and_iff_right fun _ _ => trivial) rfl

/-- Addresses are written without a prefix of their own. -/
theorem writes_addresses {ι : Type} {n : ℕ} (octets : ι → Bytes n) (addresses : List ι) :
    Writes (writeVectorU16 (addresses.map octets)) (n * addresses.length < 2 ^ 16)
      (2 + n * addresses.length) := by
  have hitem : ∀ b : Bytes n, Writes (tlsSerialize b) True n :=
    fun b => (writes_bytes b.toList).congr Iff.rfl b.toList_length
  have hsum : ((addresses.map octets).map (fun _ => n)).sum = n * addresses.length := by
    rw [List.map_const', List.sum_replicate, List.length_map, smul_eq_mul, Nat.mul_comm]
  refine (writes_vector hitem (addresses.map octets)).congr ?_ (by rw [hsum])
  rw [hsum]
  exact and_iff_right fun _ _ => trivial

namespace Claim

/-- The bytes of the inner list, without its length prefix. -/
def listLen : Claim → ℕ
  | dns names => (names.map DnsName.wireLen).sum
  | dnsWildcard names => (names.map DnsName.wireLen).sum
  | ipv4 addresses => 4 * addresses.length
  | ipv6 addresses => 16 * addresses.length

/-- The list and its length prefix fit the two-byte length of `claim_info`. -/
def Fits (claim : Claim) : Prop := 2 + claim.listLen < 2 ^ 16

/-- The type, the two length prefixes and the list. -/
def wireLen (claim : Claim) : ℕ := 6 + claim.listLen

theorem writes_claimInfo (claim : Claim) :
    Writes claim.serializeClaimInfo (claim.listLen < 2 ^ 16) (2 + claim.listLen) := by
  cases claim with
  | dns names => exact writes_names names
  | dnsWildcard names => exact writes_names names
  | ipv4 addresses => exact writes_addresses Ipv4Addr.octets addresses
  | ipv6 addresses => exact writes_addresses Ipv6Addr.octets addresses

theorem writes_claim (claim : Claim) : Writes (tlsSerialize claim) claim.Fits claim.wireLen := by
  have heq : tlsSerialize claim = (do
      let info ← claim.serializeClaimInfo >>= writeOpaque 2
      .ok (BigEndian.encode 2 claim.claimType.code.toNat ++ info)) := by
    rw [bind_assoc]
    rfl
  rw [heq]
  refine (claim.writes_claimInfo.behind.after _).congr ?_ ?_
  · rw [Fits]
    omega
  · rw [BigEndian.length_encode, wireLen]
    omega

end Claim

/-- The claims together fit their two-byte length, each of them its own. -/
def TbsCertificateLogEntry.Fits (entry : TbsCertificateLogEntry) : Prop :=
  (∀ claim ∈ entry.claims, claim.Fits) ∧ (entry.claims.map Claim.wireLen).sum < 2 ^ 16

/-- The subject type, the hash and the claims behind their length. -/
theorem writes_tbsCertificateLogEntry (entry : TbsCertificateLogEntry) :
    Writes (tlsSerialize entry) entry.Fits (36 + (entry.claims.map Claim.wireLen).sum) := by
  have heq : tlsSerialize entry = (do
      let claims ← writeVectorU16 entry.claims
      .ok (BigEndian.encode 2 entry.subjectType.code.toNat ++
        entry.subjectInfoHash.hash.bytes.toList ++ claims)) := rfl
  rw [heq]
  refine ((writes_vector Claim.writes_claim entry.claims).after _).congr Iff.rfl ?_
  rw [List.length_append, BigEndian.length_encode, List.Vector.toList_length]
  omega

namespace LogEntry

/-- No list of the entry is too long for its length prefix. -/
def Fits : LogEntry → Prop
  | null => True
  | certificate entry => entry.Fits

/-- Only the lengths decide whether an entry has leaf bytes. -/
theorem exists_leafBytes_iff (v : LogEntry) : (∃ leaf, v.leafBytes = .ok leaf) ↔ v.Fits := by
  cases v with
  | null => exact iff_of_true ⟨_, rfl⟩ trivial
  | certificate entry =>
    have hwrites := (writes_tbsCertificateLogEntry entry).after
      (BigEndian.encode 2 tbsCertEntryType.toNat)
    constructor
    · rintro ⟨leaf, hleaf⟩
      exact hwrites.fits_of_ok (leafBytes_eq_ok_iff.mp hleaf)
    · intro hfits
      obtain ⟨b, hb⟩ := hwrites.exists_ok hfits
      exact ⟨⟨b⟩, leafBytes_eq_ok_iff.mpr hb⟩

/-- The parser gives an entry back from its leaf bytes exactly when no claim of it is empty,
unless it is too long to have any. -/
theorem leafBytes_parse_iff (v : LogEntry) :
    (∀ leaf, v.leafBytes = .ok leaf → tlsParseExact leaf.bytes = .ok v) ↔
      v.ClaimsNonEmpty ∨ ¬ v.Fits := by
  have hparse {b : List UInt8} :=
    tlsParseExact_eq_ok_iff canonical_logEntry (by decide) (b := b) (v := v)
  constructor
  · intro h
    by_cases hfits : v.Fits
    · obtain ⟨leaf, hleaf⟩ := v.exists_leafBytes_iff.mpr hfits
      exact Or.inl (hparse.mp (h leaf hleaf)).1
    · exact Or.inr hfits
  · rintro (hne | hlong) leaf hleaf
    · exact hparse.mpr ⟨hne, leafBytes_eq_ok_iff.mp hleaf⟩
    · exact absurd (v.exists_leafBytes_iff.mp ⟨leaf, hleaf⟩) hlong

/-- An entry whose one claim lists no address, as the builder takes it. -/
def emptyClaimEntry : LogEntry :=
  .certificate (((TbsCertificateLogEntryBuilder.new.withSubjectType .tls).withSubjectInfoHash
    ⟨⟨List.Vector.replicate 32 0x11⟩⟩).withClaim (.ipv4 [])).build

def emptyClaimBytes : List UInt8 :=
  [0, 1, 0, 0] ++ List.replicate 32 0x11 ++ [0, 6, 0, 2, 0, 2, 0, 0]

theorem emptyClaim_unparseable :
    emptyClaimEntry.leafBytes = .ok ⟨emptyClaimBytes⟩ ∧
    tlsParseExact (α := LogEntry) emptyClaimBytes =
      .error (.invalidValue 2 "claim value list must contain at least one entry") ∧
    ¬ ∀ (v : LogEntry) leaf, v.leafBytes = .ok leaf → tlsParseExact leaf.bytes = .ok v := by
  have hleaf : emptyClaimEntry.leafBytes = .ok ⟨emptyClaimBytes⟩ := by decide +kernel
  have hparse : tlsParseExact (α := LogEntry) emptyClaimBytes =
      .error (.invalidValue 2 "claim value list must contain at least one entry") := by
    decide +kernel
  refine ⟨hleaf, hparse, ?_⟩
  intro h
  have hback := h emptyClaimEntry _ hleaf
  rw [hparse] at hback
  cases hback

end LogEntry

end Mtc
