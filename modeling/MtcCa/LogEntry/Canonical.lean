import MtcCa.LogEntry.Entry

/-! The log-entry parser accepts exactly the encodings of entries whose claims are not
empty. -/
namespace Mtc

open TlsReader

variable {α : Type} {r r' sub sub' : TlsReader}

theorem DnsName.new_eq_ok_iff {bytes : List UInt8} {name : DnsName} :
    DnsName.new bytes = .ok name ↔ bytes = name.bytes := by
  unfold DnsName.new
  constructor
  · intro h
    split at h
    · cases h
    · split at h
      · cases h
        rfl
      · cases h
  · rintro rfl
    rw [dif_neg name.ne_nil, dif_pos (show name.bytes.length ≤ maxLen from name.length_le)]

theorem canonical_dnsName : Canonical (fun _ : DnsName => True) 0 := by
  intro r r' name _
  refine Outcome.bind_eq_ok_iff.trans ?_
  rw [true_and]
  constructor
  · rintro ⟨⟨bytes, r₁⟩, hbytes, hname⟩
    cases hnew : DnsName.new bytes with
    | error e => simp [hnew] at hname
    | ok name' =>
      simp only [hnew] at hname
      cases hname
      obtain rfl := DnsName.new_eq_ok_iff.mp hnew
      exact (readOpaque_eq_ok_iff readsLenU8).mp hbytes
  · intro h
    refine ⟨(name.bytes, r'), (readOpaque_eq_ok_iff readsLenU8).mpr h, ?_⟩
    simp only [DnsName.new_eq_ok_iff.mpr rfl]

theorem neverEmpty_dnsName : NeverEmpty DnsName := by
  intro name b hb hnil
  obtain ⟨-, rfl⟩ := writeOpaque_eq_ok_iff.mp hb
  exact name.ne_nil (List.append_eq_nil_iff.mp hnil).2

theorem nonEmptyWire_eq_ok_iff {items l : List α} :
    nonEmptyWire items sub = .ok l ↔ items ≠ [] ∧ items = l := by
  rw [nonEmptyWire, Outcome.ite_error_eq_ok_iff, Except.ok.injEq]

/-- Reading a vector of at least one item. -/
theorem readNonEmpty_eq_ok_iff [TlsSerialize α] [TlsParse α]
    (hcan : Canonical (fun _ : α => True) 0) (hne : NeverEmpty α) {β : Type} {f : List α → β}
    {v : β} (hdepth : sub.depth + 1 ≤ sub.maxDepth) :
    (do
      let (items, sub) ← sub.readVectorU16
      let l ← nonEmptyWire items sub
      .ok (f l, sub)) = .ok (v, sub') ↔
      ∃ l, l ≠ [] ∧ f l = v ∧ ∃ e, writeVectorU16 l = .ok e ∧ sub.Consumes e sub' := by
  rw [Outcome.bind_eq_ok_iff]
  constructor
  · rintro ⟨⟨items, sub₁⟩, hitems, hrest⟩
    obtain ⟨l, hl, hok⟩ := Outcome.bind_eq_ok_iff.mp hrest
    obtain ⟨hnil, rfl⟩ := nonEmptyWire_eq_ok_iff.mp hl
    cases hok
    exact ⟨items, hnil, rfl, ((readVector_eq_ok_iff hcan hne readsLenU16 hdepth).mp hitems).2⟩
  · rintro ⟨l, hnil, rfl, he⟩
    refine ⟨(l, sub'), (readVector_eq_ok_iff hcan hne readsLenU16 hdepth).mpr ⟨by simp, he⟩, ?_⟩
    exact Outcome.bind_eq_ok_iff.mpr ⟨l, nonEmptyWire_eq_ok_iff.mpr ⟨hnil, rfl⟩, rfl⟩

theorem parseNameList_eq_ok_iff {names : List DnsName} (hdepth : sub.depth + 1 ≤ sub.maxDepth) :
    parseNameList sub = .ok (names, sub') ↔
      names ≠ [] ∧ ∃ e, writeVectorU16 names = .ok e ∧ sub.Consumes e sub' := by
  refine (readNonEmpty_eq_ok_iff canonical_dnsName neverEmpty_dnsName (f := id) hdepth).trans ?_
  simp

theorem ClaimType.fromCode_eq_some_iff {code : UInt16} {t : ClaimType} :
    fromCode code = some t ↔ code = t.code := by
  constructor
  · intro h
    unfold fromCode at h
    split at h
    · cases h
      assumption
    split at h
    · cases h
      assumption
    split at h
    · cases h
      assumption
    split at h
    · cases h
      assumption
    · cases h
  · rintro rfl
    cases t <;> rfl

namespace Claim

/-- The claim names at least one identifier. -/
def NonEmpty : Claim → Prop
  | dns names => names ≠ []
  | dnsWildcard names => names ≠ []
  | ipv4 addresses => addresses ≠ []
  | ipv6 addresses => addresses ≠ []

/-- The claim comes from one of the checked constructors. -/
def Checked (claim : Claim) : Prop :=
  (∃ names, newDns names = .ok claim) ∨ (∃ names, newDnsWildcard names = .ok claim) ∨
    (∃ addresses, newIpv4 addresses = .ok claim) ∨ ∃ addresses, newIpv6 addresses = .ok claim

theorem nonEmpty_eq_ok_iff {items l : List α} :
    nonEmpty items = .ok l ↔ items ≠ [] ∧ items = l := by
  rw [nonEmpty, Outcome.ite_error_eq_ok_iff, Except.ok.injEq]

theorem NonEmpty.of_checked {claim : Claim} (h : claim.Checked) : claim.NonEmpty := by
  rcases h with ⟨l, h⟩ | ⟨l, h⟩ | ⟨l, h⟩ | ⟨l, h⟩
  all_goals
    obtain ⟨_, hl, hok⟩ := Outcome.bind_eq_ok_iff.mp h
    obtain ⟨hnil, rfl⟩ := nonEmpty_eq_ok_iff.mp hl
    cases hok
    exact hnil

theorem parseNames_eq_ok_iff {f : List DnsName → Claim} {claim : Claim}
    (hdepth : sub.depth + 1 ≤ sub.maxDepth) :
    (do
      let (names, sub) ← parseNameList sub
      .ok (f names, sub)) = .ok (claim, sub') ↔
      ∃ names, names ≠ [] ∧ f names = claim ∧
        ∃ e, writeVectorU16 names = .ok e ∧ sub.Consumes e sub' := by
  rw [Outcome.bind_eq_ok_iff]
  constructor
  · rintro ⟨⟨names, sub₁⟩, hnames, hok⟩
    cases hok
    obtain ⟨hnil, he⟩ := (parseNameList_eq_ok_iff hdepth).mp hnames
    exact ⟨names, hnil, rfl, he⟩
  · rintro ⟨names, hnil, rfl, he⟩
    exact ⟨(names, sub'), (parseNameList_eq_ok_iff hdepth).mpr ⟨hnil, he⟩, rfl⟩

theorem readAddresses_eq_ok_iff {n : ℕ} {β : Type} {f : Bytes n → β} {g : β → Bytes n}
    {h : List β → Claim} {claim : Claim} (hn : 0 < n) (hgf : Function.LeftInverse g f)
    (hfg : Function.LeftInverse f g) (hdepth : sub.depth + 1 ≤ sub.maxDepth) :
    (do
      let (items, sub) ← sub.readVectorU16
      let raw ← nonEmptyWire items sub
      .ok (h (raw.map f), sub)) = .ok (claim, sub') ↔
      ∃ addresses, addresses ≠ [] ∧ h addresses = claim ∧
        ∃ e, writeVectorU16 (addresses.map g) = .ok e ∧ sub.Consumes e sub' := by
  refine (readNonEmpty_eq_ok_iff canonical_bytes (neverEmpty_bytes hn) hdepth).trans ?_
  constructor
  · rintro ⟨raw, hnil, rfl, he⟩
    refine ⟨raw.map f, by simpa using hnil, rfl, ?_⟩
    rwa [List.map_map, hgf.comp_eq_id, List.map_id]
  · rintro ⟨addresses, hnil, rfl, he⟩
    refine ⟨addresses.map g, by simpa using hnil, ?_, he⟩
    rw [List.map_map, hfg.comp_eq_id, List.map_id]

/-- A claim of a type is one made of a list by that type's constructor. -/
theorem exists_list_iff {β : Type} {t : ClaimType} {f : List β → Claim} {claim : Claim}
    (htype : claim.claimType = t ↔ ∃ l, f l = claim) (hne : ∀ l, (f l).NonEmpty ↔ l ≠ []) :
    (∃ l, l ≠ [] ∧ f l = claim ∧ ∃ e, (f l).serializeClaimInfo = .ok e ∧ sub.Consumes e sub') ↔
      claim.claimType = t ∧ claim.NonEmpty ∧
        ∃ e, claim.serializeClaimInfo = .ok e ∧ sub.Consumes e sub' := by
  rw [htype]
  constructor
  · rintro ⟨l, hl, rfl, he⟩
    exact ⟨⟨l, rfl⟩, (hne l).mpr hl, he⟩
  · rintro ⟨⟨l, rfl⟩, hl, he⟩
    exact ⟨l, (hne l).mp hl, rfl, he⟩

/-- The body of a claim is read back as a non-empty claim of its type. -/
theorem parseClaimInfo_eq_ok_iff {t : ClaimType} {claim : Claim}
    (hdepth : sub.depth + 1 ≤ sub.maxDepth) :
    parseClaimInfo t sub = .ok (claim, sub') ↔ claim.claimType = t ∧ claim.NonEmpty ∧
      ∃ e, claim.serializeClaimInfo = .ok e ∧ sub.Consumes e sub' := by
  cases t with
  | dns =>
    refine (parseNames_eq_ok_iff hdepth).trans (exists_list_iff ?_ (fun _ => Iff.rfl))
    cases claim <;> simp [claimType]
  | dnsWildcard =>
    refine (parseNames_eq_ok_iff hdepth).trans (exists_list_iff ?_ (fun _ => Iff.rfl))
    cases claim <;> simp [claimType]
  | ipv4 =>
    refine (readAddresses_eq_ok_iff (by decide) (g := Ipv4Addr.octets) (fun _ => rfl)
      (fun _ => rfl) hdepth).trans (exists_list_iff ?_ (fun _ => Iff.rfl))
    cases claim <;> simp [claimType]
  | ipv6 =>
    refine (readAddresses_eq_ok_iff (by decide) (g := Ipv6Addr.octets) (fun _ => rfl)
      (fun _ => rfl) hdepth).trans (exists_list_iff ?_ (fun _ => Iff.rfl))
    cases claim <;> simp [claimType]

end Claim

theorem claim_serialize_eq_ok_iff {claim : Claim} {b : List UInt8} :
    tlsSerialize claim = .ok b ↔ ∃ body info, claim.serializeClaimInfo = .ok body ∧
      writeOpaque 2 body = .ok info ∧
      b = BigEndian.encode 2 claim.claimType.code.toNat ++ info := by
  refine Outcome.bind_eq_ok_iff.trans ?_
  constructor
  · rintro ⟨code, hcode, hrest⟩
    obtain ⟨body, hbody, hrest⟩ := Outcome.bind_eq_ok_iff.mp hrest
    obtain ⟨info, hinfo, hok⟩ := Outcome.bind_eq_ok_iff.mp hrest
    cases hcode
    cases hok
    exact ⟨body, info, hbody, hinfo, rfl⟩
  · rintro ⟨body, info, hbody, hinfo, rfl⟩
    refine ⟨_, rfl, Outcome.bind_eq_ok_iff.mpr ⟨body, hbody, ?_⟩⟩
    exact Outcome.bind_eq_ok_iff.mpr ⟨info, hinfo, rfl⟩

theorem neverEmpty_claim : NeverEmpty Claim := by
  intro claim b hb hnil
  obtain ⟨body, info, -, -, rfl⟩ := claim_serialize_eq_ok_iff.mp hb
  have hlen := congrArg List.length (List.append_eq_nil_iff.mp hnil).1
  rw [BigEndian.length_encode] at hlen
  cases hlen

theorem canonical_claim : Canonical Claim.NonEmpty 0 := by
  intro r r' claim _
  refine Outcome.bind_eq_ok_iff.trans ?_
  constructor
  · rintro ⟨⟨code, r₁⟩, hcode, hrest⟩
    cases htype : ClaimType.fromCode code with
    | none => simp [htype] at hrest
    | some t =>
      simp only [htype] at hrest
      obtain ⟨⟨body, r₂⟩, hbody, hrest⟩ := Outcome.bind_eq_ok_iff.mp hrest
      obtain ⟨⟨claim', sub⟩, hclaim, hrest⟩ := Outcome.bind_eq_ok_iff.mp hrest
      obtain ⟨⟨⟩, hfin, hok⟩ := Outcome.bind_eq_ok_iff.mp hrest
      cases hok
      obtain rfl := ClaimType.fromCode_eq_some_iff.mp htype
      obtain ⟨rfl, hne, e, he, hsub⟩ :=
        (Claim.parseClaimInfo_eq_ok_iff (depth_new (by decide) _)).mp hclaim
      obtain ⟨info, hinfo, h₂⟩ := (readOpaque_eq_ok_iff readsLenU16).mp hbody
      have hrest := hsub.rest
      rw [finish_eq_ok_iff.mp hfin, List.append_nil, rest_new] at hrest
      subst hrest
      exact ⟨hne, _, claim_serialize_eq_ok_iff.mpr ⟨body, info, he, hinfo, rfl⟩,
        (readU16_eq_ok_iff.mp hcode).trans h₂⟩
  · rintro ⟨hne, b, hb, h⟩
    obtain ⟨body, info, hbody, hinfo, rfl⟩ := claim_serialize_eq_ok_iff.mp hb
    obtain ⟨r₁, h₁, h₂⟩ := consumes_append.mp h
    refine ⟨(claim.claimType.code, r₁), readU16_eq_ok_iff.mpr h₁, ?_⟩
    simp only [ClaimType.fromCode_eq_some_iff.mpr rfl]
    obtain ⟨sub, hsub⟩ := exists_consumes (r := TlsReader.new body) (b := body)
      (List.prefix_refl body)
    refine Outcome.bind_eq_ok_iff.mpr ⟨(body, r'),
      (readOpaque_eq_ok_iff readsLenU16).mpr ⟨info, hinfo, h₂⟩, ?_⟩
    refine Outcome.bind_eq_ok_iff.mpr ⟨(claim, sub), (Claim.parseClaimInfo_eq_ok_iff
      (depth_new (by decide) _)).mpr ⟨rfl, hne, body, hbody, hsub⟩, ?_⟩
    refine Outcome.bind_eq_ok_iff.mpr ⟨(), finish_eq_ok_iff.mpr ?_, rfl⟩
    exact List.self_eq_append_right.mp hsub.rest

theorem canonical_subjectType : Canonical (fun _ : SubjectType => True) 0 := by
  intro r r' t _
  refine Outcome.bind_eq_ok_iff.trans ?_
  cases t
  constructor
  · rintro ⟨⟨code, r₁⟩, hcode, hrest⟩
    cases htype : SubjectType.fromCode code with
    | none => simp [htype] at hrest
    | some t =>
      simp only [htype] at hrest
      cases hrest
      obtain rfl : code = 0 := by simpa [SubjectType.fromCode] using htype
      exact ⟨trivial, _, rfl, readU16_eq_ok_iff.mp hcode⟩
  · rintro ⟨-, b, hb, h⟩
    cases hb
    exact ⟨(0, r'), readU16_eq_ok_iff.mpr h, rfl⟩

theorem canonical_subjectInfoHash : Canonical (fun _ : SubjectInfoHash => True) 0 := by
  intro r r' hash _
  refine Outcome.bind_eq_ok_iff.trans ?_
  constructor
  · rintro ⟨⟨bytes, r₁⟩, hbytes, hok⟩
    cases hok
    exact ⟨trivial, _, rfl, readArray_eq_ok_iff.mp hbytes⟩
  · rintro ⟨-, b, hb, h⟩
    cases hb
    exact ⟨(hash.hash.bytes, r'), readArray_eq_ok_iff.mpr h, rfl⟩

/-- Every claim of the entry names at least one identifier. -/
def TbsCertificateLogEntry.ClaimsNonEmpty (entry : TbsCertificateLogEntry) : Prop :=
  ∀ claim ∈ entry.claims, claim.NonEmpty

theorem canonical_tbsCertificateLogEntry : Canonical TbsCertificateLogEntry.ClaimsNonEmpty 1 := by
  intro r r' entry hdepth
  refine Outcome.bind_eq_ok_iff.trans ?_
  constructor
  · rintro ⟨⟨t, r₁⟩, ht, hrest⟩
    obtain ⟨⟨hash, r₂⟩, hhash, hrest⟩ := Outcome.bind_eq_ok_iff.mp hrest
    obtain ⟨⟨claims, r₃⟩, hclaims, hok⟩ := Outcome.bind_eq_ok_iff.mp hrest
    cases hok
    obtain ⟨-, b₁, hb₁, h₁⟩ := (canonical_subjectType _ _ _ (by omega)).mp ht
    have hdepth₁ := h₁.depth_le hdepth
    obtain ⟨-, b₂, hb₂, h₂⟩ := (canonical_subjectInfoHash _ _ _ (by omega)).mp hhash
    have hdepth₂ := h₂.depth_le hdepth₁
    obtain ⟨hall, b₃, hb₃, h₃⟩ :=
      (readVector_eq_ok_iff canonical_claim neverEmpty_claim readsLenU16 hdepth₂).mp hclaims
    refine ⟨hall, b₁ ++ b₂ ++ b₃, ?_, (h₁.trans h₂).trans h₃⟩
    refine Outcome.bind_eq_ok_iff.mpr ⟨b₁, hb₁, Outcome.bind_eq_ok_iff.mpr ⟨b₂, hb₂, ?_⟩⟩
    exact Outcome.bind_eq_ok_iff.mpr ⟨b₃, hb₃, rfl⟩
  · rintro ⟨hall, b, hb, h⟩
    obtain ⟨b₁, hb₁, hb⟩ := Outcome.bind_eq_ok_iff.mp hb
    obtain ⟨b₂, hb₂, hb⟩ := Outcome.bind_eq_ok_iff.mp hb
    obtain ⟨b₃, hb₃, hok⟩ := Outcome.bind_eq_ok_iff.mp hb
    cases hok
    obtain ⟨r₂, h, h₃⟩ := consumes_append.mp h
    obtain ⟨r₁, h₁, h₂⟩ := consumes_append.mp h
    have hdepth₁ := h₁.depth_le hdepth
    have hdepth₂ := h₂.depth_le hdepth₁
    refine ⟨(entry.subjectType, r₁),
      (canonical_subjectType _ _ _ (by omega)).mpr ⟨trivial, b₁, hb₁, h₁⟩, ?_⟩
    refine Outcome.bind_eq_ok_iff.mpr ⟨(entry.subjectInfoHash, r₂),
      (canonical_subjectInfoHash _ _ _ (by omega)).mpr ⟨trivial, b₂, hb₂, h₂⟩, ?_⟩
    refine Outcome.bind_eq_ok_iff.mpr ⟨(entry.claims, r'), ?_, rfl⟩
    exact (readVector_eq_ok_iff canonical_claim neverEmpty_claim readsLenU16 hdepth₂).mpr
      ⟨hall, b₃, hb₃, h₃⟩

namespace LogEntry

def ClaimsNonEmpty : LogEntry → Prop
  | null => True
  | certificate entry => entry.ClaimsNonEmpty

/-- Every claim comes from one of the checked constructors. -/
def Checked : LogEntry → Prop
  | null => True
  | certificate entry => ∀ claim ∈ entry.claims, claim.Checked

theorem ClaimsNonEmpty.of_checked {v : LogEntry} (h : v.Checked) : v.ClaimsNonEmpty := by
  cases v with
  | null => trivial
  | certificate entry => exact fun claim hclaim => .of_checked (h claim hclaim)

end LogEntry

theorem canonical_logEntry : Canonical LogEntry.ClaimsNonEmpty 1 := by
  intro r r' v hdepth
  refine Outcome.bind_eq_ok_iff.trans ?_
  constructor
  · rintro ⟨⟨entryType, r₁⟩, htype, hrest⟩
    have h₁ := readU16_eq_ok_iff.mp htype
    simp only at hrest
    split at hrest
    · next hnull =>
      cases hrest
      exact ⟨trivial, _, rfl, hnull ▸ h₁⟩
    split at hrest
    · next hcert =>
      obtain ⟨⟨entry, r₂⟩, hentry, hok⟩ := Outcome.bind_eq_ok_iff.mp hrest
      cases hok
      obtain ⟨hall, b, hb, h₂⟩ :=
        (canonical_tbsCertificateLogEntry _ _ _ (h₁.depth_le hdepth)).mp hentry
      refine ⟨hall, _, ?_, (hcert ▸ h₁).trans h₂⟩
      exact Outcome.bind_eq_ok_iff.mpr ⟨_, rfl, Outcome.bind_eq_ok_iff.mpr ⟨b, hb, rfl⟩⟩
    · cases hrest
  · rintro ⟨hall, b, hb, h⟩
    cases v with
    | null =>
      cases hb
      exact ⟨(nullEntryType, r'), readU16_eq_ok_iff.mpr h, rfl⟩
    | certificate entry =>
      obtain ⟨_, htype, hb⟩ := Outcome.bind_eq_ok_iff.mp hb
      obtain ⟨body, hbody, hok⟩ := Outcome.bind_eq_ok_iff.mp hb
      cases htype
      cases hok
      obtain ⟨r₁, h₁, h₂⟩ := consumes_append.mp h
      refine ⟨(tbsCertEntryType, r₁), readU16_eq_ok_iff.mpr h₁, ?_⟩
      have hentry := (canonical_tbsCertificateLogEntry r₁ r' entry (h₁.depth_le hdepth)).mpr
        ⟨hall, body, hbody, h₂⟩
      exact Outcome.bind_eq_ok_iff.mpr ⟨(entry, r'), hentry, rfl⟩

/-- The entry codec is a bijection between the checked entries that encode and the accepted
byte strings. -/
theorem logEntry_codec_canonical :
    (∀ (v : LogEntry) (b : List UInt8), v.Checked → tlsSerializeToVec v = .ok b →
      tlsParseExact b = .ok v) ∧
    (∀ (b : List UInt8) (v : LogEntry), tlsParseExact b = .ok v → tlsSerializeToVec v = .ok b) ∧
    ∀ (b b' : List UInt8) (v : LogEntry), tlsParseExact b = .ok v → tlsParseExact b' = .ok v →
      b = b' := by
  have hiff {b : List UInt8} {v : LogEntry} :=
    tlsParseExact_eq_ok_iff canonical_logEntry (by decide) (b := b) (v := v)
  refine ⟨?_, ?_, ?_⟩
  · intro v b hchecked hb
    exact hiff.mpr ⟨.of_checked hchecked, hb⟩
  · intro b v h
    exact (hiff.mp h).2
  · intro b b' v h h'
    exact Except.ok.inj ((hiff.mp h).2.symm.trans (hiff.mp h').2)

/-- An entry with one address, and its 46 bytes. -/
def sampleEntry : LogEntry :=
  .certificate ⟨.tls, ⟨⟨List.Vector.replicate 32 0x11⟩⟩, [.ipv4 [⟨⟨[192, 0, 2, 1], rfl⟩⟩]]⟩

def sampleEntryBytes : List UInt8 :=
  [0, 1, 0, 0] ++ List.replicate 32 0x11 ++ [0, 10, 0, 2, 0, 6, 0, 4, 192, 0, 2, 1]

theorem logEntry_codec_canonical_ipv4 : tlsParseExact sampleEntryBytes = .ok sampleEntry := by
  refine logEntry_codec_canonical.1 sampleEntry sampleEntryBytes ?_ (by decide +kernel)
  intro claim hclaim
  rw [List.mem_singleton.mp hclaim]
  exact Or.inr (Or.inr (Or.inl ⟨[⟨⟨[192, 0, 2, 1], rfl⟩⟩], rfl⟩))

end Mtc
