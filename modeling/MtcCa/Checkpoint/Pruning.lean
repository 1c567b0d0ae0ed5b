import MtcCa.Checkpoint.Canonical

/-! Pruning checkpoints (`crates/mtc/src/pruning_checkpoint.rs`): the checked constructor, the wire
form, and the parser, which builds a declaration without the constructor and accepts exactly the
encodings of those the constructor allows. -/
namespace Mtc

/-- The key meant to sign a declaration: a name like that of a log, of its own type. -/
@[ext] structure SigningKeyId where
  str : String
  ne_empty : str ≠ ""

instance : DecidableEq SigningKeyId := fun a b =>
  decidable_of_iff (a.str = b.str) SigningKeyId.ext_iff.symm

def SigningKeyId.new (value : String) : Except IdError SigningKeyId :=
  if h : value = "" then .error .empty else .ok ⟨value, h⟩

def SigningKeyId.asBytes (id : SigningKeyId) : List UInt8 := id.str.toUTF8.data.toList

inductive PruningCheckpointError where
  | invertedRange (start stop : ℕ)
  | rangeExceedsTreeSize (stop treeSize : ℕ)
deriving DecidableEq

def validateRange (prunedStart prunedEnd : Index) (treeSize : TreeSize) :
    Except PruningCheckpointError Unit :=
  if prunedStart > prunedEnd then .error (.invertedRange prunedStart.toNat prunedEnd.toNat)
  else if prunedEnd > treeSize then .error (.rangeExceedsTreeSize prunedEnd.toNat treeSize.toNat)
  else .ok ()

/-- The declaration that the leaves `[prunedStart, prunedEnd)` are pruned from a log of `treeSize`
entries. Its fields are private in the source, and `tryNew` is its only public constructor. -/
structure PruningCheckpoint where
  prunedStart : Index
  prunedEnd : Index
  treeSize : TreeSize
  /-- Seconds since the Unix epoch. -/
  prunedAt : UInt64
  signingKeyId : SigningKeyId
deriving DecidableEq

namespace PruningCheckpoint

def tryNew (prunedStart prunedEnd : Index) (treeSize : TreeSize) (prunedAt : UInt64)
    (signingKeyId : SigningKeyId) : Except PruningCheckpointError PruningCheckpoint := do
  validateRange prunedStart prunedEnd treeSize
  .ok ⟨prunedStart, prunedEnd, treeSize, prunedAt, signingKeyId⟩

/-- The number of leaves the declaration covers. -/
def prunedLen (c : PruningCheckpoint) : UInt64 := c.prunedEnd - c.prunedStart

/-- Some call of the constructor gives the declaration. -/
def Constructible (c : PruningCheckpoint) : Prop :=
  ∃ prunedStart prunedEnd treeSize prunedAt signingKeyId,
    tryNew prunedStart prunedEnd treeSize prunedAt signingKeyId = .ok c

end PruningCheckpoint

instance : TlsSerialize PruningCheckpoint where
  tlsSerialize c := do
    let prunedStart ← writeU64 c.prunedStart
    let prunedEnd ← writeU64 c.prunedEnd
    let treeSize ← writeU64 c.treeSize
    let prunedAt ← writeU64 c.prunedAt
    let signingKeyId ← writeOpaqueU16 c.signingKeyId.asBytes
    .ok (prunedStart ++ prunedEnd ++ treeSize ++ prunedAt ++ signingKeyId)

/-- The key's name, of at least one byte. -/
def readSigningKeyId (reader : TlsReader) : Except WireError (SigningKeyId × TlsReader) := do
  let offset := reader.position
  let (bytes, reader) ← reader.readOpaqueU16
  if bytes.isEmpty then .error (.invalidValue offset "signing_key_id must be 1..=65535 bytes")
  else
    match fromUtf8 bytes with
    | none => .error (.invalidValue offset "signing_key_id is not valid UTF-8")
    | some text =>
      let id ← (SigningKeyId.new text).mapError
        (fun _ => .invalidValue offset "signing_key_id is not valid UTF-8")
      .ok (id, reader)

def PruningCheckpointError.reason : PruningCheckpointError → String
  | invertedRange _ _ => "pruned range is inverted: start > end"
  | rangeExceedsTreeSize _ _ => "pruned range end exceeds tree_size"

/-- The range is checked as soon as its three fields are read. -/
instance : TlsParse PruningCheckpoint where
  tlsParse reader := do
    let (prunedStart, reader) ← readU64 reader
    let (prunedEnd, reader) ← readU64 reader
    let (treeSize, reader) ← readU64 reader
    let rangeOffset := reader.position
    (validateRange prunedStart prunedEnd treeSize).mapError
      (fun err => .invalidValue rangeOffset err.reason)
    let (prunedAt, reader) ← readU64 reader
    let (signingKeyId, reader) ← readSigningKeyId reader
    .ok (⟨prunedStart, prunedEnd, treeSize, prunedAt, signingKeyId⟩, reader)

open TlsReader

variable {r r' : TlsReader} {b : List UInt8} {c : PruningCheckpoint}

theorem SigningKeyId.new_eq_ok_iff {value : String} {id : SigningKeyId} :
    SigningKeyId.new value = .ok id ↔ value = id.str := by
  unfold SigningKeyId.new
  constructor
  · intro h
    split at h
    · cases h
    · cases h
      rfl
  · rintro rfl
    exact dif_neg id.ne_empty

theorem SigningKeyId.asBytes_ne_nil (id : SigningKeyId) : id.asBytes ≠ [] := by
  intro h
  apply id.ne_empty
  rw [← String.toByteArray_inj]
  exact ByteArray.ext (Array.toList_inj.mp h)

/-- Reading a key's name undoes writing it. -/
theorem readSigningKeyId_eq_ok_iff {id : SigningKeyId} :
    readSigningKeyId r = .ok (id, r') ↔
      ∃ e, writeOpaque 2 id.asBytes = .ok e ∧ r.Consumes e r' := by
  rw [← readOpaque_eq_ok_iff readsLenU16, readSigningKeyId, Outcome.bind_eq_ok_iff]
  constructor
  · rintro ⟨⟨bytes, r₁⟩, hbytes, hrest⟩
    obtain ⟨-, hrest⟩ := Outcome.ite_error_eq_ok_iff.mp hrest
    cases htext : fromUtf8 bytes with
    | none => simp [htext] at hrest
    | some text =>
      simp only [htext] at hrest
      obtain ⟨_, hnew, hok⟩ := Outcome.bind_eq_ok_iff.mp hrest
      cases hok
      obtain rfl := SigningKeyId.new_eq_ok_iff.mp (Outcome.mapError_eq_ok_iff.mp hnew)
      obtain rfl := fromUtf8_eq_some_iff.mp htext
      exact hbytes
  · intro h
    refine ⟨(id.asBytes, r'), h, Outcome.ite_error_eq_ok_iff.mpr ⟨?_, ?_⟩⟩
    · rw [List.isEmpty_iff]
      exact id.asBytes_ne_nil
    · have htext : fromUtf8 id.asBytes = some id.str := fromUtf8_eq_some_iff.mpr rfl
      have hnew : SigningKeyId.new id.str = .ok id := SigningKeyId.new_eq_ok_iff.mpr rfl
      simp only [htext, hnew]
      rfl

theorem validateRange_eq_ok_iff {prunedStart prunedEnd : Index} {treeSize : TreeSize} :
    validateRange prunedStart prunedEnd treeSize = .ok () ↔
      prunedStart ≤ prunedEnd ∧ prunedEnd ≤ treeSize := by
  rw [validateRange, Outcome.ite_error_eq_ok_iff, Outcome.ite_error_eq_ok_iff, and_iff_left rfl,
    gt_iff_lt, gt_iff_lt, UInt64.not_lt, UInt64.not_lt]

namespace PruningCheckpoint

theorem constructible_iff :
    c.Constructible ↔ c.prunedStart ≤ c.prunedEnd ∧ c.prunedEnd ≤ c.treeSize := by
  rw [← validateRange_eq_ok_iff]
  constructor
  · rintro ⟨prunedStart, prunedEnd, treeSize, prunedAt, signingKeyId, h⟩
    obtain ⟨⟨⟩, hvalid, hok⟩ := Outcome.bind_eq_ok_iff.mp h
    cases hok
    exact hvalid
  · intro h
    exact ⟨_, _, _, _, _, Outcome.bind_eq_ok_iff.mpr ⟨(), h, rfl⟩⟩

/-- The subtraction does not wrap. -/
theorem Constructible.toNat_prunedLen (h : c.Constructible) :
    c.prunedLen.toNat = c.prunedEnd.toNat - c.prunedStart.toNat :=
  UInt64.toNat_sub_of_le _ _ (constructible_iff.mp h).1

theorem tlsSerialize_eq_ok_iff :
    tlsSerialize c = .ok b ↔ ∃ idBytes, writeOpaque 2 c.signingKeyId.asBytes = .ok idBytes ∧
      b = BigEndian.encode 8 c.prunedStart.toNat ++ BigEndian.encode 8 c.prunedEnd.toNat ++
        BigEndian.encode 8 c.treeSize.toNat ++ BigEndian.encode 8 c.prunedAt.toNat ++ idBytes := by
  refine Outcome.bind_eq_ok_iff.trans ?_
  simp only [writeU64, writeBytes, Outcome.ok_bind, Except.ok.injEq, exists_eq_left']
  rw [Outcome.bind_eq_ok_iff]
  simp only [Except.ok.injEq, eq_comm (b := b)]
  rfl

theorem exists_serialize_iff :
    (∃ b, tlsSerializeToVec c = .ok b) ↔ c.signingKeyId.asBytes.length ≤ 65535 := by
  simp only [tlsSerializeToVec, tlsSerialize_eq_ok_iff, writeOpaque_eq_ok_iff]
  constructor
  · rintro ⟨-, -, ⟨hlt, -⟩, -⟩
    omega
  · intro h
    exact ⟨_, _, ⟨by omega, rfl⟩, rfl⟩

theorem canonical : Canonical Constructible 0 := by
  intro r r' c _
  simp only [constructible_iff, tlsSerialize_eq_ok_iff]
  refine Outcome.bind_eq_ok_iff.trans ?_
  constructor
  · rintro ⟨⟨prunedStart, r₁⟩, hstart, h⟩
    obtain ⟨⟨prunedEnd, r₂⟩, hend, h⟩ := Outcome.bind_eq_ok_iff.mp h
    obtain ⟨⟨treeSize, r₃⟩, hsize, h⟩ := Outcome.bind_eq_ok_iff.mp h
    obtain ⟨⟨⟩, hvalid, h⟩ := Outcome.bind_eq_ok_iff.mp h
    obtain ⟨⟨prunedAt, r₄⟩, hat, h⟩ := Outcome.bind_eq_ok_iff.mp h
    obtain ⟨⟨signingKeyId, r₅⟩, hid, hok⟩ := Outcome.bind_eq_ok_iff.mp h
    cases hok
    obtain ⟨idBytes, hbytes, h₅⟩ := readSigningKeyId_eq_ok_iff.mp hid
    refine ⟨validateRange_eq_ok_iff.mp (Outcome.mapError_eq_ok_iff.mp hvalid), _,
      ⟨idBytes, hbytes, rfl⟩, ?_⟩
    exact ((((readU64_eq_ok_iff.mp hstart).trans (readU64_eq_ok_iff.mp hend)).trans
      (readU64_eq_ok_iff.mp hsize)).trans (readU64_eq_ok_iff.mp hat)).trans h₅
  · rintro ⟨hvalid, _, ⟨idBytes, hbytes, rfl⟩, h⟩
    obtain ⟨r₄, h, h₅⟩ := consumes_append.mp h
    obtain ⟨r₃, h, h₄⟩ := consumes_append.mp h
    obtain ⟨r₂, h, h₃⟩ := consumes_append.mp h
    obtain ⟨r₁, h₁, h₂⟩ := consumes_append.mp h
    refine ⟨(c.prunedStart, r₁), readU64_eq_ok_iff.mpr h₁, ?_⟩
    refine Outcome.bind_eq_ok_iff.mpr ⟨(c.prunedEnd, r₂), readU64_eq_ok_iff.mpr h₂, ?_⟩
    refine Outcome.bind_eq_ok_iff.mpr ⟨(c.treeSize, r₃), readU64_eq_ok_iff.mpr h₃, ?_⟩
    refine Outcome.bind_eq_ok_iff.mpr
      ⟨(), Outcome.mapError_eq_ok_iff.mpr (validateRange_eq_ok_iff.mpr hvalid), ?_⟩
    refine Outcome.bind_eq_ok_iff.mpr ⟨(c.prunedAt, r₄), readU64_eq_ok_iff.mpr h₄, ?_⟩
    exact Outcome.bind_eq_ok_iff.mpr
      ⟨(c.signingKeyId, r'), readSigningKeyId_eq_ok_iff.mpr ⟨idBytes, hbytes, h₅⟩, rfl⟩

/-- The parser accepts exactly the encodings of the declarations that can be constructed, and
gives back the declaration that was encoded. -/
theorem pruningCheckpoint_codec_canonical :
    (∀ c : PruningCheckpoint, c.Constructible ↔
      c.prunedStart ≤ c.prunedEnd ∧ c.prunedEnd ≤ c.treeSize) ∧
    (∀ c : PruningCheckpoint, (∃ b, tlsSerializeToVec c = .ok b) ↔
      c.signingKeyId.asBytes.length ≤ 65535) ∧
    (∀ (b : List UInt8) (c : PruningCheckpoint),
      tlsParseExact b = .ok c ↔ c.Constructible ∧ tlsSerializeToVec c = .ok b) ∧
    ∀ (b : List UInt8) (c : PruningCheckpoint), tlsParseExact b = .ok c →
      c.prunedLen.toNat = c.prunedEnd.toNat - c.prunedStart.toNat := by
  have hiff {b : List UInt8} {c : PruningCheckpoint} :
      tlsParseExact b = .ok c ↔ c.Constructible ∧ tlsSerializeToVec c = .ok b :=
    tlsParseExact_eq_ok_iff canonical (Nat.zero_le _)
  exact ⟨fun _ => constructible_iff, fun _ => exists_serialize_iff, fun _ _ => hiff,
    fun _ _ h => (hiff.mp h).1.toNat_prunedLen⟩

end PruningCheckpoint

end Mtc
