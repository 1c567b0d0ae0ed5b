import MtcCa.LogEntry.Commitment
import MtcCa.Wire.Faults

/-! The offsets of the structural errors of log entries: absolute outside the claims, counted from
the start of `claim_info` inside a claim (`crates/mtc/src/log_entry/claim.rs`,
`crates/mtc/src/wire/reader.rs`, `crates/mtc/src/wire/error.rs`). -/
namespace Mtc

open TlsReader

/-- What is wrong with the list of a claim. -/
def listFault : ClaimType → Fault
  | .dns => prefixedFault 2 (Fault.afterItems (fun _ : DnsName => True) (prefixedFault 1 noFault))
  | .dnsWildcard =>
    prefixedFault 2 (Fault.afterItems (fun _ : DnsName => True) (prefixedFault 1 noFault))
  | .ipv4 => prefixedFault 2 (Fault.afterItems (fun _ : Bytes 4 => True) (bytesFault 4))
  | .ipv6 => prefixedFault 2 (Fault.afterItems (fun _ : Bytes 16 => True) (bytesFault 16))

def claimInfoEncoding (t : ClaimType) (claim : Claim) (c : List UInt8) : Prop :=
  claim.claimType = t ∧ claim.NonEmpty ∧ claim.serializeClaimInfo = .ok c

/-- What is wrong with a `claim_info`: its list, or bytes left behind the list. -/
def infoFault (t : ClaimType) : Fault :=
  (listFault t).andThen (claimInfoEncoding t) (fun _ => trailingFault)

def codeEncoding (code : UInt16) (c : List UInt8) : Prop := c = BigEndian.encode 2 code.toNat

/-- What is wrong with a claim, when `I` says what is wrong with a `claim_info`. -/
def claimFault (I : ClaimType → Fault) : Fault :=
  (bytesFault 2).andThen codeEncoding (fun code pos input err =>
    ∃ t, ClaimType.fromCode code = some t ∧ prefixedFault 2 (I t) pos input err)

def subjectTypeEncoding (t : SubjectType) (c : List UInt8) : Prop := tlsSerialize t = .ok c

def subjectInfoHashEncoding (hash : SubjectInfoHash) (c : List UInt8) : Prop :=
  tlsSerialize hash = .ok c

def tbsFault (I : ClaimType → Fault) : Fault :=
  (bytesFault 2).andThen subjectTypeEncoding (fun _ =>
    (bytesFault 32).andThen subjectInfoHashEncoding (fun _ =>
      prefixedFault 2 (Fault.afterItems Claim.NonEmpty (claimFault I))))

def entryFault (I : ClaimType → Fault) : Fault :=
  (bytesFault 2).andThen codeEncoding (fun code pos input err =>
    code = tbsCertEntryType ∧ tbsFault I pos input err)

/-- What is wrong with a byte string that should be one entry. -/
def exactFault (I : ClaimType → Fault) : Fault :=
  (entryFault I).andThen (fun (v : LogEntry) c => v.ClaimsNonEmpty ∧ tlsSerialize v = .ok c)
    (fun _ => trailingFault)

/-- The fault of a byte string with its absolute position: every read is placed where it starts in
the whole string. -/
def AbsoluteFault (b : List UInt8) (err : WireError) : Prop := exactFault infoFault 0 b err

variable {r : TlsReader} {b : List UInt8} {err : WireError} {t : ClaimType} {d : ℕ}

theorem not_structural_nonEmptyWire {α : Type} {items : List α} {sub : TlsReader}
    (h : nonEmptyWire items sub = .error err) : ¬ err.Structural := by
  unfold nonEmptyWire at h
  split at h <;> cases h
  exact id

theorem failsAs_dnsName :
    FailsAs (tlsParse : TlsReader → Except WireError (DnsName × TlsReader))
      (prefixedFault 1 noFault) 0 := by
  refine (failsAs_readOpaque readsLenU8 failsAs_readLenU8).bind_pure ?_
  rintro ⟨bytes, r⟩ err h
  simp only at h
  split at h <;> cases h
  exact id

theorem failsAs_parseNameList :
    FailsAs parseNameList
      (prefixedFault 2 (Fault.afterItems (fun _ : DnsName => True) (prefixedFault 1 noFault)))
      1 := by
  refine (failsAs_readVector canonical_dnsName neverEmpty_dnsName failsAs_dnsName readsLenU16
    failsAs_readLenU16).bind_pure ?_
  rintro ⟨items, r⟩ err h
  rcases Outcome.bind_eq_error_iff.mp h with h | ⟨_, -, h⟩
  · exact not_structural_nonEmptyWire h
  · cases h

theorem failsAs_addresses {n : ℕ} (hn : 0 < n) (f : List (Bytes n) → Claim) :
    FailsAs (fun sub => do
      let (items, sub) ← sub.readVectorU16
      let raw ← nonEmptyWire items sub
      .ok (f raw, sub))
      (prefixedFault 2 (Fault.afterItems (fun _ : Bytes n => True) (bytesFault n))) 1 := by
  refine (failsAs_readVector canonical_bytes (neverEmpty_bytes hn) (failsAs_readArray n) readsLenU16
    failsAs_readLenU16).bind_pure ?_
  rintro ⟨items, r⟩ err h
  rcases Outcome.bind_eq_error_iff.mp h with h | ⟨_, -, h⟩
  · exact not_structural_nonEmptyWire h
  · cases h

theorem failsAs_parseClaimInfo (t : ClaimType) :
    FailsAs (Claim.parseClaimInfo t) (listFault t) 1 := by
  cases t with
  | dns => exact failsAs_parseNameList.bind_pure fun _ _ => not_structural_of_ok
  | dnsWildcard => exact failsAs_parseNameList.bind_pure fun _ _ => not_structural_of_ok
  | ipv4 => exact failsAs_addresses (by decide) fun raw => .ipv4 (raw.map Ipv4Addr.mk)
  | ipv6 => exact failsAs_addresses (by decide) fun raw => .ipv6 (raw.map Ipv6Addr.mk)

theorem accepts_parseClaimInfo (t : ClaimType) :
    Accepts (Claim.parseClaimInfo t) (claimInfoEncoding t) 1 := by
  intro r v r' hdepth
  rw [Claim.parseClaimInfo_eq_ok_iff hdepth]
  constructor
  · rintro ⟨htype, hne, e, he, h⟩
    exact ⟨e, ⟨htype, hne, he⟩, h⟩
  · rintro ⟨e, ⟨htype, hne, he⟩, h⟩
    exact ⟨htype, hne, e, he, h⟩

/-- What the parser of a claim does with the body it has read. -/
def parseInfo (t : ClaimType) (read : List UInt8 × TlsReader) :
    Except WireError (Claim × TlsReader) := do
  let (claim, sub) ← Claim.parseClaimInfo t (TlsReader.new read.1)
  sub.finish
  .ok (claim, read.2)

/-- A `claim_info` is parsed as a byte string of its own, so its faults are placed from zero. -/
theorem parseInfo_error_iff {body : List UInt8} :
    parseInfo t (body, r) = .error err ∧ err.Structural ↔ infoFault t 0 body err :=
  FailsAs.bind (accepts_parseClaimInfo t) (failsAs_parseClaimInfo t)
    (fun claim => (failsAs_finish.mono (Nat.zero_le 1)).bind_pure fun _ _ =>
      not_structural_of_ok (v := (claim, r)))
    (TlsReader.new body) err (depth_new (by decide) body)

theorem failsAs_claimInfo (t : ClaimType) :
    FailsAs (fun r => r.readOpaqueU16 >>= parseInfo t) (prefixedFault 2 fun _ => infoFault t 0)
      0 := by
  have hread : FailsAs (fun r => readLenU16 r >>= fun x => x.2.takeBody x.1 >>= parseInfo t)
      (prefixedFault 2 fun _ => infoFault t 0) 0 :=
    FailsAs.bind (accepts_readLen readsLenU16) failsAs_readLenU16
      fun len r err _ => takeBody_bind_error_iff fun body r' _ => parseInfo_error_iff
  intro r err hdepth
  have hassoc : r.readOpaqueU16 >>= parseInfo t =
      readLenU16 r >>= fun x => x.2.takeBody x.1 >>= parseInfo t := bind_assoc _ _ _
  rw [← hread r err hdepth]
  simp only [hassoc]

theorem failsAs_claim :
    FailsAs (tlsParse : TlsReader → Except WireError (Claim × TlsReader))
      (claimFault fun t _ => infoFault t 0) 0 := by
  refine FailsAs.bind accepts_readU16 failsAs_readU16 fun code r err hdepth => ?_
  cases htype : ClaimType.fromCode code with
  | none =>
    simp only [htype]
    refine iff_of_false ?_ ?_
    · rintro ⟨h, hs⟩
      cases h
      exact hs
    · rintro ⟨t, ht, -⟩
      cases ht
  | some t =>
    simp only [htype]
    refine Iff.trans (failsAs_claimInfo t r err hdepth) ?_
    simp

theorem accepts_subjectType :
    Accepts (tlsParse : TlsReader → Except WireError (SubjectType × TlsReader))
      subjectTypeEncoding 0 :=
  .of_canonical_true canonical_subjectType

theorem failsAs_subjectType :
    FailsAs (tlsParse : TlsReader → Except WireError (SubjectType × TlsReader)) (bytesFault 2)
      0 := by
  refine failsAs_readU16.bind_pure ?_
  rintro ⟨code, r⟩ err h
  simp only at h
  split at h <;> cases h
  exact id

theorem accepts_subjectInfoHash :
    Accepts (tlsParse : TlsReader → Except WireError (SubjectInfoHash × TlsReader))
      subjectInfoHashEncoding 0 :=
  .of_canonical_true canonical_subjectInfoHash

theorem failsAs_subjectInfoHash :
    FailsAs (tlsParse : TlsReader → Except WireError (SubjectInfoHash × TlsReader))
      (bytesFault 32) 0 :=
  (failsAs_readArray 32).bind_pure fun _ _ => not_structural_of_ok

theorem failsAs_tbsCertificateLogEntry :
    FailsAs (tlsParse : TlsReader → Except WireError (TbsCertificateLogEntry × TlsReader))
      (tbsFault fun t _ => infoFault t 0) 1 := by
  refine FailsAs.bind (accepts_subjectType.mono (by decide))
    (failsAs_subjectType.mono (by decide)) fun subjectType => ?_
  refine FailsAs.bind (accepts_subjectInfoHash.mono (by decide))
    (failsAs_subjectInfoHash.mono (by decide)) fun hash => ?_
  exact (failsAs_readVector canonical_claim neverEmpty_claim failsAs_claim readsLenU16
    failsAs_readLenU16).bind_pure fun _ _ => not_structural_of_ok

theorem failsAs_logEntry :
    FailsAs (tlsParse : TlsReader → Except WireError (LogEntry × TlsReader))
      (entryFault fun t _ => infoFault t 0) 1 := by
  refine FailsAs.bind (accepts_readU16.mono (by decide)) (failsAs_readU16.mono (by decide))
    fun code r err hdepth => ?_
  simp only
  split
  · next hnull =>
    refine iff_of_false (fun h => by cases h.1) ?_
    rintro ⟨hcert, -⟩
    exact absurd (hnull.symm.trans hcert) (by decide)
  split
  · next hcert =>
    rw [and_iff_right hcert]
    exact failsAs_tbsCertificateLogEntry.bind_pure (fun _ _ => not_structural_of_ok) r err hdepth
  · next hcert =>
    refine iff_of_false ?_ (fun h => hcert h.1)
    rintro ⟨h, hs⟩
    cases h
    exact hs

/-- The structural errors of the entry parser. -/
theorem tlsParseExact_error_iff :
    tlsParseExact (α := LogEntry) b = .error err ∧ err.Structural ↔
      exactFault (fun t _ => infoFault t 0) 0 b err :=
  FailsAs.bind (.of_canonical canonical_logEntry) failsAs_logEntry
    (fun v => (failsAs_finish.mono (Nat.zero_le 1)).bind_pure fun _ _ =>
      not_structural_of_ok (v := v)) (TlsReader.new b) err (depth_new (by decide) b)

/-- A fault inside the `claim_info` of a claim. -/
def claimInside (I : ClaimType → Fault) : Fault :=
  Fault.after codeEncoding (fun code pos input err => ∃ t, ClaimType.fromCode code = some t ∧
    Fault.after (lengthEncoding 2) (fun len => Fault.within len (I t)) pos input err)

/-- A fault inside a `claim_info`, behind the whole pieces of an entry and whole claims. -/
def insideFault (I : ClaimType → Fault) : Fault :=
  Fault.after codeEncoding (fun code pos input err => code = tbsCertEntryType ∧
    Fault.after subjectTypeEncoding (fun _ => Fault.after subjectInfoHashEncoding (fun _ =>
      Fault.after (lengthEncoding 2) (fun len =>
        Fault.within len (Fault.afterItems Claim.NonEmpty (claimInside I))))) pos input err)

/-- Behind a well-formed beginning the bytes of some `claim_info` run out too early, or some are
left over. -/
def ClaimInfoTorn (b : List UInt8) : Prop := ∃ err, insideFault (fun t _ => infoFault t 0) 0 b err

section split

variable {I : ClaimType → Fault} {pos : ℕ} {input : List UInt8}

theorem claimFault_iff : claimFault I pos input err ↔
    claimFault (fun _ => noFault) pos input err ∨ claimInside I pos input err := by
  simp only [claimFault, claimInside, prefixedFault, scopedFault, Fault.andThen, Fault.after,
    Fault.within, noFault, and_or_left, exists_or, or_assoc, and_false, exists_false, or_false]

theorem entryFault_iff : entryFault I pos input err ↔
    entryFault (fun _ => noFault) pos input err ∨ insideFault I pos input err := by
  have hclaim : claimFault I = fun pos input err =>
      claimFault (fun _ => noFault) pos input err ∨ claimInside I pos input err := by
    funext pos input err
    exact propext claimFault_iff
  simp only [entryFault, tbsFault, insideFault, hclaim]
  generalize claimFault (fun _ => noFault) = outside
  simp only [prefixedFault, scopedFault, Fault.andThen, Fault.after, Fault.within,
    Fault.afterItems, and_or_left, exists_or, or_assoc]

/-- A fault lies outside every `claim_info` or inside one. -/
theorem exactFault_iff : exactFault I pos input err ↔
    exactFault (fun _ => noFault) pos input err ∨ insideFault I pos input err := by
  simp only [exactFault, Fault.andThen]
  rw [entryFault_iff, or_right_comm]

theorem exactFault_of_outside (h : exactFault (fun _ => noFault) pos input err) :
    exactFault I pos input err :=
  exactFault_iff.mpr (Or.inl h)

theorem claimInside_elim (h : claimInside I pos input err) :
    ∃ t start info, pos < start ∧ I t start info err ∧
      ∀ J e, J t start info e → claimInside J pos input e := by
  obtain ⟨code, c, _, hc, rfl, t, ht, len, c', _, hlen, rfl, info, after, hinfo, rfl, hI⟩ := h
  refine ⟨t, pos + c.length + c'.length, info, ?_, hI, ?_⟩
  · rw [Fault.length_lengthEncoding hlen]
    omega
  · intro J e hJ
    exact ⟨code, c, _, hc, rfl, t, ht, len, c', _, hlen, rfl, info, after, hinfo, rfl, hJ⟩

/-- A fault inside a `claim_info` is placed behind its start, and any other fault of the same
`claim_info` has the same place. -/
theorem insideFault_elim (h : insideFault I pos input err) :
    ∃ t start info, pos < start ∧ I t start info err ∧
      ∀ J e, J t start info e → insideFault J pos input e := by
  obtain ⟨code, c, _, hc, rfl, hcode, subjectType, c₁, _, hc₁, rfl, hash, c₂, _, hc₂, rfl, len, c₃,
    _, hc₃, rfl, body, rest, hbody, rfl, claims, c₄, tail, hclaims, hc₄, rfl, htail, h⟩ := h
  obtain ⟨t, start, info, hstart, hI, hback⟩ := claimInside_elim h
  refine ⟨t, start, info, by omega, hI, ?_⟩
  intro J e hJ
  exact ⟨code, c, _, hc, rfl, hcode, subjectType, c₁, _, hc₁, rfl, hash, c₂, _, hc₂, rfl, len, c₃,
    _, hc₃, rfl, _, rest, hbody, rfl, claims, c₄, tail, hclaims, hc₄, rfl, htail, hback J e hJ⟩

end split

/-- The fault inside a `claim_info` moves with its start. -/
theorem shifts_infoFault (t : ClaimType) : Fault.Shifts (infoFault t) := by
  refine Fault.Shifts.andThen ?_ fun _ => Fault.shifts_trailingFault
  cases t with
  | dns | dnsWildcard => exact Fault.shifts_noFault.prefixed.afterItems.prefixed
  | ipv4 | ipv6 => exact Fault.shifts_bytesFault.afterItems.prefixed

theorem codeEncoding_inj {code code' : UInt16} {c : List UInt8} (h : codeEncoding code c)
    (h' : codeEncoding code' c) : code = code' :=
  UInt16.toNat_inj.mp
    (BigEndian.encode_inj (UInt16.toNat_lt _) (UInt16.toNat_lt _) (h.symm.trans h'))

theorem length_codeEncoding {code : UInt16} {c : List UInt8} (h : codeEncoding code c) :
    c.length = 2 :=
  h ▸ BigEndian.length_encode

section exclusion

variable {I : ClaimType → Fault}

theorem claimFault_excludes : Fault.Excludes (claimFault fun _ => noFault) (claimInside I) := by
  refine Fault.Excludes.andThen (fun _ _ => length_codeEncoding)
    (fun _ _ _ => codeEncoding_inj) fun code => ?_
  rintro pos pos' input err err' ⟨t, -, h⟩ ⟨t', -, h'⟩
  exact Fault.excludes_noFault.prefixed h h'

theorem blocks_claimFault : Fault.Blocks Claim.NonEmpty (claimFault fun t _ => infoFault t 0) :=
  Fault.Blocks.of_failsAs canonical_claim failsAs_claim

theorem entryFault_excludes : Fault.Excludes (entryFault fun _ => noFault)
    (insideFault fun t _ => infoFault t 0) := by
  refine Fault.Excludes.andThen (fun _ _ => length_codeEncoding)
    (fun _ _ _ => codeEncoding_inj) fun code => ?_
  rintro pos pos' input err err' ⟨-, h⟩ ⟨-, h'⟩
  refine Fault.Excludes.andThen (n := 2) ?_ ?_ (fun _ => ?_) h h'
  · rintro ⟨⟩ c hc
    cases hc
    rfl
  · rintro ⟨⟩ ⟨⟩ c - -
    rfl
  refine Fault.Excludes.andThen (n := 32) ?_ ?_ fun _ => ?_
  · rintro hash c hc
    cases hc
    exact hash.hash.bytes.toList_length
  · intro hash hash' c hc hc'
    exact delimits_subjectInfoHash.eq hc hc'
  · refine Fault.Excludes.prefixed
      (Fault.Excludes.afterItems claimFault_excludes delimits_claim ?_ ?_)
    · exact fun _ _ _ _ _ h => blocks_claimFault (claimFault_iff.mpr (Or.inl h))
    · exact fun _ _ _ _ _ h => blocks_claimFault (claimFault_iff.mpr (Or.inr h))

/-- No byte string is faulty both outside and inside its claims. -/
theorem exactFault_excludes {err' : WireError} (h : exactFault (fun _ => noFault) 0 b err)
    (h' : insideFault (fun t _ => infoFault t 0) 0 b err') : False := by
  rcases h with h | ⟨v, c, rest, ⟨hv, hc⟩, rfl, -⟩
  · exact entryFault_excludes h h'
  · exact Fault.Blocks.of_failsAs canonical_logEntry failsAs_logEntry
      (entryFault_iff.mpr (Or.inr h')) hv hc

end exclusion

/-- The error reported for a torn `claim_info` is not at its absolute position. -/
theorem not_absoluteFault_of_torn (h : insideFault (fun t _ => infoFault t 0) 0 b err) :
    tlsParseExact (α := LogEntry) b = .error err ∧ err.Structural ∧ ¬ AbsoluteFault b err := by
  obtain ⟨hparse, hs⟩ := tlsParseExact_error_iff.mpr (exactFault_iff.mpr (Or.inr h))
  refine ⟨hparse, hs, ?_⟩
  intro habs
  rcases exactFault_iff.mp habs with hout | hin
  · exact exactFault_excludes hout h
  · obtain ⟨t, start, info, hstart, hinfo, hback⟩ := insideFault_elim hin
    obtain ⟨e, he, herr⟩ := (shifts_infoFault t 0 start info err).mp (by rwa [Nat.zero_add])
    have hreported := (tlsParseExact_error_iff.mpr (exactFault_iff.mpr (Or.inr (hback _ e he)))).1
    obtain rfl : err = e := Except.error.inj (hparse.symm.trans hreported)
    exact WireError.shift_ne hstart hs herr

/-- Every structural error is the absolute one, or falls short of it by the start of a
`claim_info`. -/
theorem exists_absoluteFault (h : tlsParseExact (α := LogEntry) b = .error err)
    (hs : err.Structural) : AbsoluteFault b err ∨ ∃ start, 0 < start ∧
      AbsoluteFault b (err.shift start) := by
  rcases exactFault_iff.mp (tlsParseExact_error_iff.mp ⟨h, hs⟩) with hout | hin
  · exact Or.inl (exactFault_of_outside hout)
  · obtain ⟨t, start, info, hstart, hinfo, hback⟩ := insideFault_elim hin
    refine Or.inr ⟨start, hstart, exactFault_iff.mpr (Or.inr (hback _ _ ?_))⟩
    rw [← Nat.zero_add start]
    exact (shifts_infoFault t 0 start info _).mpr ⟨err, hinfo, by rw [Nat.zero_add]⟩

/-- Over all byte strings, structural errors carry absolute offsets exactly where no `claim_info`
is torn. -/
theorem parse_offset_absolute_iff (b : List UInt8) :
    (∀ err, tlsParseExact (α := LogEntry) b = .error err → err.Structural →
      AbsoluteFault b err) ↔ ¬ ClaimInfoTorn b := by
  constructor
  · rintro h ⟨err, herr⟩
    obtain ⟨hparse, hs, hnot⟩ := not_absoluteFault_of_torn herr
    exact hnot (h err hparse hs)
  · intro htorn err hparse hs
    rcases exactFault_iff.mp (tlsParseExact_error_iff.mp ⟨hparse, hs⟩) with hout | hin
    · exact exactFault_of_outside hout
    · exact absurd ⟨err, hin⟩ htorn

/-- A claim whose list announces three bytes of addresses of four bytes each. -/
def tornInfo : List UInt8 := [0, 3, 192, 0, 2]

def tornBytes : List UInt8 :=
  [0, 1, 0, 0] ++ List.replicate 32 0x11 ++ [0, 9, 0, 2, 0, 5] ++ tornInfo

theorem infoFault_tornInfo (pos : ℕ) :
    infoFault .ipv4 pos tornInfo (.unexpectedEof (pos + 2) 4 3) :=
  Or.inl (Or.inr ⟨3, [0, 3], [192, 0, 2], ⟨by decide, rfl⟩, rfl, Or.inr ⟨[192, 0, 2], [], rfl, rfl,
    [], [], [192, 0, 2], by simp, rfl, rfl, by decide, by decide, rfl⟩⟩)

theorem insideFault_tornBytes {I : ClaimType → Fault} (h : I .ipv4 42 tornInfo err) :
    insideFault I 0 tornBytes err :=
  ⟨1, [0, 1], _, rfl, rfl, rfl, .tls, [0, 0], _, rfl, rfl, ⟨⟨List.Vector.replicate 32 0x11⟩⟩,
    List.replicate 32 0x11, _, rfl, rfl, 9, [0, 9], _, ⟨by decide, rfl⟩, rfl, _, [], rfl, rfl, [],
    [], _, by simp, rfl, rfl, by simp, 2, [0, 2], _, rfl, rfl, .ipv4, rfl, 5, [0, 5], _,
    ⟨by decide, rfl⟩, rfl, tornInfo, [], rfl, rfl, h⟩

/-- The list of the claim breaks off at byte 44, and the parser reports byte 2. -/
theorem torn_offset_relative :
    tlsParseExact (α := LogEntry) tornBytes = .error (.unexpectedEof 2 4 3) ∧
    AbsoluteFault tornBytes (.unexpectedEof 44 4 3) ∧
    ¬ ∀ b err, tlsParseExact (α := LogEntry) b = .error err → err.Structural →
      AbsoluteFault b err := by
  have hinside : insideFault (fun t _ => infoFault t 0) 0 tornBytes (.unexpectedEof 2 4 3) :=
    insideFault_tornBytes (infoFault_tornInfo 0)
  obtain ⟨hparse, hs, hnot⟩ := not_absoluteFault_of_torn hinside
  refine ⟨hparse, ?_, fun h => hnot (h _ _ hparse hs)⟩
  exact exactFault_iff.mpr (Or.inr (insideFault_tornBytes (infoFault_tornInfo 42)))

end Mtc
