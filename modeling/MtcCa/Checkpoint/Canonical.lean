import MtcCa.Checkpoint.Checkpoint

/-! The checkpoint parser accepts exactly the encodings of checkpoints, and a signed message
belongs to one subtree of one log. -/
namespace Mtc

open TlsReader

variable {id : List UInt8} {r r' : TlsReader} {b : List UInt8}

theorem trustAnchorIdLenByte_eq_ok_iff {len : UInt8} :
    trustAnchorIdLenByte id = .ok len ↔
      id ≠ [] ∧ id.length < 256 ∧ len = UInt8.ofNat id.length := by
  rw [trustAnchorIdLenByte, Outcome.ite_error_eq_ok_iff, Outcome.ite_else_error_eq_ok_iff,
    Except.ok.injEq, List.isEmpty_iff, eq_comm (a := len)]

/-- An identifier is written as a byte string behind one length byte, unless it is empty. -/
theorem writeTrustAnchorId_eq_ok_iff :
    writeTrustAnchorId id = .ok b ↔ id ≠ [] ∧ writeOpaque 1 id = .ok b := by
  rw [writeTrustAnchorId, Outcome.bind_eq_ok_iff, writeOpaque_eq_ok_iff]
  simp only [Outcome.mapError_eq_ok_iff, trustAnchorIdLenByte_eq_ok_iff]
  constructor
  · rintro ⟨_, ⟨hne, hlt, rfl⟩, hok⟩
    cases hok
    exact ⟨hne, hlt, rfl⟩
  · rintro ⟨hne, hlt, rfl⟩
    exact ⟨_, ⟨hne, hlt, rfl⟩, rfl⟩

/-- The length prefix says where a byte string ends. -/
theorem lengthPrefixed_inj {w : ℕ} {a a' s s' : List UInt8} (ha : a.length < 256 ^ w)
    (ha' : a'.length < 256 ^ w)
    (h : BigEndian.encode w a.length ++ (a ++ s) = BigEndian.encode w a'.length ++ (a' ++ s')) :
    a = a' ∧ s = s' := by
  obtain ⟨hlen, h⟩ := List.append_inj h (by simp)
  exact List.append_inj h (BigEndian.encode_inj ha ha' hlen)

theorem subtreeSignatureInput_eq_ok_iff {cosignerId logId m : List UInt8} {start stop : UInt64}
    {hash : HashOutput} :
    subtreeSignatureInput cosignerId logId start stop hash = .ok m ↔
      (cosignerId ≠ [] ∧ cosignerId.length < 256) ∧ (logId ≠ [] ∧ logId.length < 256) ∧
      m = subtreeSignatureLabel ++ (BigEndian.encode 1 cosignerId.length ++ (cosignerId ++
        (BigEndian.encode 1 logId.length ++ (logId ++ (BigEndian.encode 8 start.toNat ++
          (BigEndian.encode 8 stop.toNat ++ hash.asBytes)))))) := by
  simp only [subtreeSignatureInput, Outcome.bind_eq_ok_iff, trustAnchorIdLenByte_eq_ok_iff]
  constructor
  · rintro ⟨_, ⟨hne, hlt, rfl⟩, _, ⟨hne', hlt', rfl⟩, hok⟩
    cases hok
    refine ⟨⟨hne, hlt⟩, ⟨hne', hlt'⟩, ?_⟩
    simp only [List.append_assoc]
    rfl
  · rintro ⟨⟨hne, hlt⟩, ⟨hne', hlt'⟩, rfl⟩
    refine ⟨_, ⟨hne, hlt, rfl⟩, _, ⟨hne', hlt', rfl⟩, ?_⟩
    simp only [List.append_assoc]
    rfl

/-- A signed message is the message of one subtree of one log. -/
theorem subtreeSignatureInput_inj {cosignerId cosignerId' logId logId' m : List UInt8}
    {start start' stop stop' : UInt64} {hash hash' : HashOutput}
    (h : subtreeSignatureInput cosignerId logId start stop hash = .ok m)
    (h' : subtreeSignatureInput cosignerId' logId' start' stop' hash' = .ok m) :
    cosignerId = cosignerId' ∧ logId = logId' ∧ start = start' ∧ stop = stop' ∧ hash = hash' := by
  obtain ⟨⟨-, hc⟩, ⟨-, hl⟩, rfl⟩ := subtreeSignatureInput_eq_ok_iff.mp h
  obtain ⟨⟨-, hc'⟩, ⟨-, hl'⟩, hm⟩ := subtreeSignatureInput_eq_ok_iff.mp h'
  obtain ⟨rfl, hrest⟩ := lengthPrefixed_inj hc hc' (List.append_cancel_left hm)
  obtain ⟨rfl, hfields⟩ := lengthPrefixed_inj hl hl' hrest
  obtain ⟨hstart, hend⟩ := List.append_inj hfields (by simp)
  obtain ⟨hstop, hhash⟩ := List.append_inj hend (by simp)
  refine ⟨rfl, rfl, ?_, ?_, ?_⟩
  · exact UInt64.toNat_inj.mp (BigEndian.encode_inj start.toNat_lt start'.toNat_lt hstart)
  · exact UInt64.toNat_inj.mp (BigEndian.encode_inj stop.toNat_lt stop'.toNat_lt hstop)
  · obtain ⟨⟨bytes, hbytes⟩⟩ := hash
    obtain ⟨⟨bytes', hbytes'⟩⟩ := hash'
    obtain rfl : bytes = bytes' := hhash
    rfl

/-- A trust-anchor identifier has 1 to 255 bytes. -/
def ValidTrustAnchorId (id : List UInt8) : Prop := 1 ≤ id.length ∧ id.length ≤ 255

theorem exists_subtreeSignatureInput {cosignerId logId : List UInt8}
    (hc : ValidTrustAnchorId cosignerId) (hl : ValidTrustAnchorId logId) (start stop : UInt64)
    (hash : HashOutput) : ∃ m, subtreeSignatureInput cosignerId logId start stop hash = .ok m := by
  obtain ⟨hc₁, hc₂⟩ := hc
  obtain ⟨hl₁, hl₂⟩ := hl
  exact ⟨_, subtreeSignatureInput_eq_ok_iff.mpr ⟨⟨List.length_pos_iff.mp hc₁, by omega⟩,
    ⟨List.length_pos_iff.mp hl₁, by omega⟩, rfl⟩⟩

theorem fromUtf8_eq_some_iff {bytes : List UInt8} {text : String} :
    fromUtf8 bytes = some text ↔ bytes = text.toUTF8.data.toList := by
  rw [fromUtf8, String.fromUTF8?]
  constructor
  · intro h
    split at h
    · cases h
      rfl
    · cases h
  · rintro rfl
    exact dif_pos text.isValidUTF8

theorem LogId.new_eq_ok_iff {value : String} {logId : LogId} :
    LogId.new value = .ok logId ↔ value = logId.str := by
  unfold LogId.new
  constructor
  · intro h
    split at h
    · cases h
    · cases h
      rfl
  · rintro rfl
    exact dif_neg logId.ne_empty

theorem LogId.asBytes_injective : Function.Injective LogId.asBytes := by
  rintro ⟨s, hs⟩ ⟨t, ht⟩ h
  have hbytes : s.toByteArray = t.toByteArray := ByteArray.ext (Array.toList_inj.mp h)
  obtain rfl := String.toByteArray_inj.mp hbytes
  rfl

theorem LogId.asBytes_ne_nil (logId : LogId) : logId.asBytes ≠ [] := by
  intro h
  apply logId.ne_empty
  rw [← String.toByteArray_inj]
  exact ByteArray.ext (Array.toList_inj.mp h)

/-- Reading a log's name undoes writing it. -/
theorem readLogId_eq_ok_iff {logId : LogId} :
    readLogId r = .ok (logId, r') ↔
      ∃ e, writeTrustAnchorId logId.asBytes = .ok e ∧ r.Consumes e r' := by
  simp only [writeTrustAnchorId_eq_ok_iff, and_iff_right logId.asBytes_ne_nil]
  rw [← readOpaque_eq_ok_iff readsLenU8, readLogId, Outcome.bind_eq_ok_iff]
  simp only [Outcome.mapError_eq_ok_iff]
  constructor
  · rintro ⟨⟨bytes, r₁⟩, hbytes, hrest⟩
    obtain ⟨-, hrest⟩ := Outcome.ite_error_eq_ok_iff.mp hrest
    cases htext : fromUtf8 bytes with
    | none => simp [htext] at hrest
    | some text =>
      simp only [htext] at hrest
      obtain ⟨_, hnew, hok⟩ := Outcome.bind_eq_ok_iff.mp hrest
      cases hok
      obtain rfl := LogId.new_eq_ok_iff.mp (Outcome.mapError_eq_ok_iff.mp hnew)
      obtain rfl := fromUtf8_eq_some_iff.mp htext
      exact hbytes
  · intro h
    refine ⟨(logId.asBytes, r'), h, Outcome.ite_error_eq_ok_iff.mpr ⟨?_, ?_⟩⟩
    · rw [List.isEmpty_iff]
      exact logId.asBytes_ne_nil
    · have htext : fromUtf8 logId.asBytes = some logId.str := fromUtf8_eq_some_iff.mpr rfl
      have hnew : LogId.new logId.str = .ok logId := LogId.new_eq_ok_iff.mpr rfl
      simp only [htext, hnew]
      rfl

theorem readU64_eq_ok_iff {v : UInt64} :
    readU64 r = .ok (v, r') ↔ r.Consumes (BigEndian.encode 8 v.toNat) r' :=
  readNumber_eq_ok_iff UInt64.ofNat UInt64.toNat UInt64.toNat_lt
    (fun _ hn => UInt64.toNat_ofNat_of_lt' hn) (fun _ _ => UInt64.toNat_inj.mp)

/-- No two subtrees of valid names share a signed message, so two checkpoints share theirs
exactly when they agree in all but the signing time and the signature. -/
theorem signatureInput_injective :
    (∀ cosignerId logId cosignerId' logId' : List UInt8, ∀ start stop start' stop' : UInt64,
      ∀ hash hash' : HashOutput, ValidTrustAnchorId cosignerId → ValidTrustAnchorId logId →
      ValidTrustAnchorId cosignerId' → ValidTrustAnchorId logId' →
      subtreeSignatureInput cosignerId logId start stop hash =
        subtreeSignatureInput cosignerId' logId' start' stop' hash' →
      cosignerId = cosignerId' ∧ logId = logId' ∧ start = start' ∧ stop = stop' ∧ hash = hash') ∧
    ∀ (S S' : Type) (c : Checkpoint S) (c' : Checkpoint S'), ValidTrustAnchorId c.logId.asBytes →
      ValidTrustAnchorId c'.logId.asBytes →
      (c.signatureInput = c'.signatureInput ↔
        c.logId = c'.logId ∧ c.treeSize = c'.treeSize ∧ c.rootHash = c'.rootHash) := by
  refine ⟨?_, ?_⟩
  · intro cosignerId logId cosignerId' logId' start stop start' stop' hash hash' hc hl hc' hl' h
    obtain ⟨m, hm⟩ := exists_subtreeSignatureInput hc' hl' start' stop' hash'
    exact subtreeSignatureInput_inj (h.trans hm) hm
  · intro S S' c c' hc hc'
    constructor
    · intro h
      obtain ⟨m, hm⟩ := exists_subtreeSignatureInput hc' hc' 0 c'.treeSize c'.rootHash
      obtain ⟨-, hlog, -, hsize, hroot⟩ := subtreeSignatureInput_inj (h.trans hm) hm
      exact ⟨LogId.asBytes_injective hlog, hsize, hroot⟩
    · rintro ⟨hlog, hsize, hroot⟩
      unfold Checkpoint.signatureInput
      rw [hlog, hsize, hroot]

/-- Names that read as part of each other: one byte of the one, two of the other. -/
theorem signatureInput_injective_ids :
    subtreeSignatureInput [1] [1, 1] 0 0 ⟨⟨List.replicate 32 0, rfl⟩⟩ ≠
      subtreeSignatureInput [1, 1] [1] 0 0 ⟨⟨List.replicate 32 0, rfl⟩⟩ := by
  intro h
  obtain ⟨hid, -⟩ := signatureInput_injective.1 [1] [1, 1] [1, 1] [1] 0 0 0 0
    ⟨⟨List.replicate 32 0, rfl⟩⟩ ⟨⟨List.replicate 32 0, rfl⟩⟩ ⟨by decide, by decide⟩
    ⟨by decide, by decide⟩ ⟨by decide, by decide⟩ ⟨by decide, by decide⟩ h
  cases hid

namespace Checkpoint

variable {c : Checkpoint Signed}

/-- The bytes of a checkpoint are those of its fields, in order. -/
theorem tlsSerialize_eq_ok_iff :
    tlsSerialize c = .ok b ↔ ∃ idBytes sigBytes,
      writeTrustAnchorId c.logId.asBytes = .ok idBytes ∧
      writeOpaque 2 c.state.signature.bytes = .ok sigBytes ∧
      b = idBytes ++ BigEndian.encode 8 c.treeSize.toNat ++ c.rootHash.asBytes ++
        BigEndian.encode 8 c.signedAt.toNat ++ sigBytes := by
  refine Outcome.bind_eq_ok_iff.trans ?_
  constructor
  · rintro ⟨idBytes, hid, hrest⟩
    simp only [writeU64, writeBytes, Outcome.ok_bind] at hrest
    obtain ⟨sigBytes, hsig, hok⟩ := Outcome.bind_eq_ok_iff.mp hrest
    cases hok
    exact ⟨idBytes, sigBytes, hid, hsig, rfl⟩
  · rintro ⟨idBytes, sigBytes, hid, hsig, rfl⟩
    refine ⟨idBytes, hid, ?_⟩
    simp only [writeU64, writeBytes, Outcome.ok_bind]
    exact Outcome.bind_eq_ok_iff.mpr ⟨sigBytes, hsig, rfl⟩

/-- The fields are read back from the bytes they are written to. -/
theorem parseFrom_eq_ok_iff :
    parseFrom r = .ok (c, r') ↔ ∃ b, tlsSerialize c = .ok b ∧ r.Consumes b r' := by
  simp only [tlsSerialize_eq_ok_iff, parseFrom, Outcome.bind_eq_ok_iff,
    Outcome.mapError_eq_ok_iff]
  constructor
  · rintro ⟨⟨logId, r₁⟩, hid, ⟨treeSize, r₂⟩, hsize, ⟨rootHash, r₃⟩, hroot, ⟨signedAt, r₄⟩, htime,
      ⟨signature, r₅⟩, hsig, hok⟩
    cases hok
    obtain ⟨idBytes, hid, h₁⟩ := readLogId_eq_ok_iff.mp hid
    have h₂ := readU64_eq_ok_iff.mp hsize
    have h₃ := readArray_eq_ok_iff.mp hroot
    have h₄ := readU64_eq_ok_iff.mp htime
    obtain ⟨sigBytes, hsig, h₅⟩ := (readOpaque_eq_ok_iff readsLenU16).mp hsig
    exact ⟨_, ⟨idBytes, sigBytes, hid, hsig, rfl⟩, (((h₁.trans h₂).trans h₃).trans h₄).trans h₅⟩
  · rintro ⟨_, ⟨idBytes, sigBytes, hid, hsig, rfl⟩, h⟩
    obtain ⟨r₄, h, h₅⟩ := consumes_append.mp h
    obtain ⟨r₃, h, h₄⟩ := consumes_append.mp h
    obtain ⟨r₂, h, h₃⟩ := consumes_append.mp h
    obtain ⟨r₁, h₁, h₂⟩ := consumes_append.mp h
    refine ⟨(c.logId, r₁), readLogId_eq_ok_iff.mpr ⟨idBytes, hid, h₁⟩, (c.treeSize, r₂),
      readU64_eq_ok_iff.mpr h₂, (c.rootHash.bytes, r₃), readArray_eq_ok_iff.mpr h₃,
      (c.signedAt, r₄), readU64_eq_ok_iff.mpr h₄, (c.state.signature.bytes, r'), ?_, rfl⟩
    exact (readOpaque_eq_ok_iff readsLenU16).mpr ⟨sigBytes, hsig, h₅⟩

theorem parseTlsPresentation_eq_ok_iff :
    parseTlsPresentation b = .ok c ↔ serializeTlsPresentation c = .ok b := by
  simp only [parseTlsPresentation, Outcome.bind_eq_ok_iff, Outcome.mapError_eq_ok_iff]
  constructor
  · rintro ⟨⟨c', r'⟩, hparse, ⟨⟩, hdone, hok⟩
    cases hok
    obtain ⟨e, he, h⟩ := parseFrom_eq_ok_iff.mp hparse
    obtain rfl := consumes_and_finish_iff.mp ⟨r', h, hdone⟩
    exact he
  · intro hb
    obtain ⟨r', h, hdone⟩ := consumes_and_finish_iff.mpr (rfl : b = b)
    exact ⟨(c, r'), parseFrom_eq_ok_iff.mpr ⟨b, hb, h⟩, (), hdone, rfl⟩

theorem exists_serialize_iff :
    (∃ b, serializeTlsPresentation c = .ok b) ↔
      (1 ≤ c.logId.asBytes.length ∧ c.logId.asBytes.length ≤ 255) ∧
        c.state.signature.bytes.length ≤ 65535 := by
  simp only [serializeTlsPresentation, tlsSerializeToVec, tlsSerialize_eq_ok_iff,
    writeTrustAnchorId_eq_ok_iff, writeOpaque_eq_ok_iff]
  constructor
  · rintro ⟨b, idBytes, sigBytes, ⟨hne, hid, -⟩, ⟨hsig, -⟩, -⟩
    have hpos := List.length_pos_iff.mpr hne
    omega
  · rintro ⟨⟨hpos, hid⟩, hsig⟩
    exact ⟨_, _, _, ⟨List.length_pos_iff.mp hpos, by omega, rfl⟩, ⟨by omega, rfl⟩, rfl⟩

/-- A signed checkpoint encodes exactly when its name and its signature fit their prefixes;
the encoding parses back to it and to no other checkpoint, and nothing else parses. -/
theorem checkpoint_codec_canonical :
    (∀ c : Checkpoint Signed, (∃ b, serializeTlsPresentation c = .ok b) ↔
      (1 ≤ c.logId.asBytes.length ∧ c.logId.asBytes.length ≤ 255) ∧
        c.state.signature.bytes.length ≤ 65535) ∧
    ∀ (b : List UInt8) (c : Checkpoint Signed),
      parseTlsPresentation b = .ok c ↔ serializeTlsPresentation c = .ok b :=
  ⟨fun _ => exists_serialize_iff, fun _ _ => parseTlsPresentation_eq_ok_iff⟩

end Checkpoint

end Mtc
