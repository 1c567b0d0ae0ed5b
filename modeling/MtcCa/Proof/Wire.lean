import MtcCa.Checkpoint.Canonical
import MtcCa.Proof.Consistency

/-! The wire form of both proofs: two 64-bit numbers and a vector of hashes
(`crates/mtc/src/proof/inclusion.rs`, `crates/mtc/src/proof/consistency.rs`). -/
namespace Mtc

/-- Two numbers and the hashes of a path, in order. -/
def writeSizedPath (first second : UInt64) (path : List HashOutput) :
    Except WriteError (List UInt8) := do
  let firstBytes ← writeU64 first
  let secondBytes ← writeU64 second
  let pathBytes ← writeVectorU16 (path.map HashOutput.bytes)
  .ok (firstBytes ++ secondBytes ++ pathBytes)

def readSizedPath (reader : TlsReader) :
    Except WireError ((UInt64 × UInt64 × List HashOutput) × TlsReader) := do
  let (first, reader) ← readU64 reader
  let (second, reader) ← readU64 reader
  let (arrays, reader) ← reader.readVectorU16
  .ok ((first, second, arrays.map HashOutput.mk), reader)

instance : TlsSerialize InclusionProof where
  tlsSerialize proof := writeSizedPath proof.treeSize proof.leafIndex proof.auditPath

instance : TlsParse InclusionProof where
  tlsParse reader := do
    let ((treeSize, leafIndex, auditPath), reader) ← readSizedPath reader
    .ok (⟨treeSize, leafIndex, auditPath⟩, reader)

instance : TlsSerialize ConsistencyProof where
  tlsSerialize proof := writeSizedPath proof.oldSize proof.newSize proof.path

instance : TlsParse ConsistencyProof where
  tlsParse reader := do
    let ((oldSize, newSize, path), reader) ← readSizedPath reader
    .ok (⟨oldSize, newSize, path⟩, reader)

open TlsReader

variable {r r' : TlsReader} {b body : List UInt8} {first second : UInt64} {path : List HashOutput}

/-- The body of the vector is the hashes, 32 bytes each. -/
theorem serializeItems_hashes (path : List HashOutput) :
    ∃ body, serializeItems (path.map HashOutput.bytes) = .ok body ∧
    body.length = 32 * path.length := by
  induction path with
  | nil => exact ⟨[], rfl, rfl⟩
  | cons hash path ih =>
    obtain ⟨body, hbody, hlen⟩ := ih
    refine ⟨hash.bytes.toList ++ body, ?_, ?_⟩
    · exact serializeItems_cons_eq_ok_iff.mpr ⟨_, body, rfl, hbody, rfl⟩
    · rw [List.length_append, List.Vector.toList_length, hlen, List.length_cons]
      omega

theorem writeSizedPath_eq_ok_iff :
    writeSizedPath first second path = .ok b ↔
      ∃ body, writeVector 2 (path.map HashOutput.bytes) = .ok body ∧
        b = BigEndian.encode 8 first.toNat ++ BigEndian.encode 8 second.toNat ++ body := by
  simp only [writeSizedPath, writeU64, writeBytes, Outcome.ok_bind, writeVectorU16,
    Outcome.bind_eq_ok_iff, Except.ok.injEq, eq_comm (b := b)]

/-- A path is written exactly when its hashes fit the two-byte length. -/
theorem exists_writeSizedPath_iff :
    (∃ b, writeSizedPath first second path = .ok b) ↔ path.length ≤ 2047 := by
  obtain ⟨body, hbody, hlen⟩ := serializeItems_hashes path
  simp only [writeSizedPath_eq_ok_iff, writeVector, hbody, Outcome.ok_bind, writeOpaque_eq_ok_iff,
    hlen]
  constructor
  · rintro ⟨-, -, ⟨hlt, -⟩, -⟩
    omega
  · intro h
    exact ⟨_, _, ⟨by omega, rfl⟩, rfl⟩

theorem map_mk_bytes (path : List HashOutput) :
    (path.map HashOutput.bytes).map HashOutput.mk = path := by
  rw [List.map_map]
  exact List.map_id _

theorem map_bytes_mk (arrays : List (Bytes 32)) :
    (arrays.map HashOutput.mk).map HashOutput.bytes = arrays := by
  rw [List.map_map]
  exact List.map_id _

/-- Reading the two numbers and the path undoes writing them. -/
theorem readSizedPath_eq_ok_iff (hdepth : r.depth + 1 ≤ r.maxDepth) :
    readSizedPath r = .ok ((first, second, path), r') ↔
      ∃ b, writeSizedPath first second path = .ok b ∧ r.Consumes b r' := by
  simp only [writeSizedPath_eq_ok_iff, readSizedPath, Outcome.bind_eq_ok_iff]
  constructor
  · rintro ⟨⟨first, r₁⟩, hfirst, ⟨second, r₂⟩, hsecond, ⟨arrays, r₃⟩, harrays, hok⟩
    cases hok
    have h₁ := readU64_eq_ok_iff.mp hfirst
    have h₂ := readU64_eq_ok_iff.mp hsecond
    obtain ⟨-, body, hbody, h₃⟩ := (readVector_eq_ok_iff canonical_bytes
      (neverEmpty_bytes (by omega)) readsLenU16 (h₂.depth_le (h₁.depth_le hdepth))).mp harrays
    rw [← map_bytes_mk arrays] at hbody
    exact ⟨_, ⟨body, hbody, rfl⟩, (h₁.trans h₂).trans h₃⟩
  · rintro ⟨_, ⟨body, hbody, rfl⟩, h⟩
    obtain ⟨r₂, h, h₃⟩ := consumes_append.mp h
    obtain ⟨r₁, h₁, h₂⟩ := consumes_append.mp h
    refine ⟨(first, r₁), readU64_eq_ok_iff.mpr h₁, (second, r₂), readU64_eq_ok_iff.mpr h₂,
      (path.map HashOutput.bytes, r'), ?_, ?_⟩
    · exact (readVector_eq_ok_iff canonical_bytes (neverEmpty_bytes (by omega)) readsLenU16
        (h₂.depth_le (h₁.depth_le hdepth))).mpr ⟨fun _ _ => trivial, body, hbody, h₃⟩
    · simp only [map_mk_bytes]

theorem canonical_inclusionProof : Canonical (fun _ : InclusionProof => True) 1 := by
  intro r r' proof hdepth
  rw [true_and]
  refine Outcome.bind_eq_ok_iff.trans ?_
  constructor
  · rintro ⟨⟨⟨treeSize, leafIndex, auditPath⟩, r₁⟩, hread, hok⟩
    cases hok
    exact (readSizedPath_eq_ok_iff hdepth).mp hread
  · intro h
    exact ⟨((proof.treeSize, proof.leafIndex, proof.auditPath), r'),
      (readSizedPath_eq_ok_iff hdepth).mpr h, rfl⟩

theorem canonical_consistencyProof : Canonical (fun _ : ConsistencyProof => True) 1 := by
  intro r r' proof hdepth
  rw [true_and]
  refine Outcome.bind_eq_ok_iff.trans ?_
  constructor
  · rintro ⟨⟨⟨oldSize, newSize, path⟩, r₁⟩, hread, hok⟩
    cases hok
    exact (readSizedPath_eq_ok_iff hdepth).mp hread
  · intro h
    exact ⟨((proof.oldSize, proof.newSize, proof.path), r'),
      (readSizedPath_eq_ok_iff hdepth).mpr h, rfl⟩

/-- The length that stands before a written path is that of whole hashes. -/
theorem prefix_of_writeSizedPath {front rest : List UInt8} {len : ℕ} (hfront : front.length = 16)
    (hlen : len < 2 ^ 16)
    (h : writeSizedPath first second path = .ok (front ++ BigEndian.encode 2 len ++ rest)) :
    len = 32 * path.length := by
  obtain ⟨body, hbody, hitems⟩ := serializeItems_hashes path
  obtain ⟨out, hout, heq⟩ := writeSizedPath_eq_ok_iff.mp h
  rw [writeVector, hbody, Outcome.ok_bind, writeOpaque_eq_ok_iff] at hout
  obtain ⟨hlt, rfl⟩ := hout
  rw [List.append_assoc] at heq
  obtain ⟨-, heq⟩ := List.append_inj heq (by simp [hfront])
  obtain ⟨heq, -⟩ := List.append_inj heq (by simp)
  rw [← hitems]
  exact BigEndian.encode_inj hlen hlt heq

/-- A codec of values with a path of hashes that loses nothing and accepts nothing else. -/
structure ExactPathCodec (α : Type) [TlsSerialize α] [TlsParse α]
    (path : α → List HashOutput) : Prop where
  encodes : ∀ v : α, (∃ b, tlsSerializeToVec v = .ok b) ↔ (path v).length ≤ 2047
  parses : ∀ (v : α) b, tlsSerializeToVec v = .ok b → tlsParseExact b = .ok v
  reencodes : ∀ b (v : α), tlsParseExact b = .ok v → tlsSerializeToVec v = .ok b
  /-- Behind the two numbers, a path length that is not one of whole hashes is rejected. -/
  misaligned : ∀ front len rest, front.length = 16 → len < 2 ^ 16 → len % 32 ≠ 0 →
    ∀ v : α, tlsParseExact (front ++ BigEndian.encode 2 len ++ rest) ≠ .ok v

theorem exactPathCodec_of_canonical {α : Type} [TlsSerialize α] [TlsParse α]
    (hcan : Canonical (fun _ : α => True) 1) {first second : α → UInt64}
    {path : α → List HashOutput}
    (hwrite : ∀ v, tlsSerialize v = writeSizedPath (first v) (second v) (path v)) :
    ExactPathCodec α path := by
  have hiff (b : List UInt8) (v : α) : tlsParseExact b = .ok v ↔ tlsSerialize v = .ok b := by
    rw [tlsParseExact_eq_ok_iff hcan (by decide), true_and]
  refine ⟨?_, fun v b => (hiff b v).mpr, fun b v => (hiff b v).mp, ?_⟩
  · intro v
    simp only [tlsSerializeToVec, hwrite]
    exact exists_writeSizedPath_iff
  · intro front len rest hfront hlen hmod v h
    rw [hiff, hwrite] at h
    have hpath := prefix_of_writeSizedPath hfront hlen h
    omega

/-- Both proofs are encoded without loss, and only encodings are accepted. -/
theorem proof_codecs_exact : ExactPathCodec InclusionProof InclusionProof.auditPath ∧
    ExactPathCodec ConsistencyProof ConsistencyProof.path :=
  ⟨exactPathCodec_of_canonical canonical_inclusionProof (fun _ => rfl),
    exactPathCodec_of_canonical canonical_consistencyProof (fun _ => rfl)⟩

end Mtc
