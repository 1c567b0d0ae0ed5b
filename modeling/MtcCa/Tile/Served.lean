import MtcCa.Proof.InclusionCorrect
import MtcCa.Tile.BuildCorrect
import MtcCa.Tile.Path
import MtcCa.Wire.Codec

/-! The bytes a tile is served as (`crates/mtc/src/tile/mod.rs`), and that no later tree of the
same log gives other bytes to the same path. -/
namespace Mtc

open TlsReader

namespace Tile

/-- The hashes of a tile, one after the other. -/
def toBytes (t : Tile) : List UInt8 := t.hashes.flatMap HashOutput.asBytes

/-- The loop of `from_bytes`. -/
def readHashes : ℕ → TlsReader → Except WireError (List HashOutput × TlsReader)
  | 0, r => .ok ([], r)
  | width + 1, r => do
    let (bytes, r) ← r.readArray 32
    let (hashes, r) ← readHashes width r
    .ok (⟨bytes⟩ :: hashes, r)

variable {r r' : TlsReader} {w : ℕ} {hashes : List HashOutput} {b : List UInt8}

theorem length_flatMap_asBytes (hashes : List HashOutput) :
    (hashes.flatMap HashOutput.asBytes).length = 32 * hashes.length := by
  simp [List.length_flatMap, HashOutput.asBytes, Nat.mul_comm]

theorem readHashes_eq_ok_iff : readHashes w r = .ok (hashes, r') ↔
    hashes.length = w ∧ r.Consumes (hashes.flatMap HashOutput.asBytes) r' := by
  induction w generalizing r hashes with
  | zero =>
    rw [readHashes, List.length_eq_zero_iff]
    constructor
    · rintro ⟨⟩
      exact ⟨rfl, .refl _⟩
    · rintro ⟨rfl, h⟩
      rw [h.reader_unique (.refl _)]
  | succ w ih =>
    rw [readHashes]
    simp only [Outcome.bind_eq_ok_iff, Prod.exists, Except.ok.injEq, Prod.mk.injEq]
    constructor
    · rintro ⟨bytes, r₁, hbytes, rest, r₂, hrest, rfl, rfl⟩
      obtain ⟨hlen, h⟩ := ih.mp hrest
      refine ⟨by rw [List.length_cons, hlen], ?_⟩
      rw [List.flatMap_cons]
      exact (readArray_eq_ok_iff.mp hbytes).trans h
    · rintro ⟨hlen, h⟩
      obtain ⟨hash, rest, rfl⟩ := List.exists_cons_of_length_eq_add_one hlen
      rw [List.flatMap_cons] at h
      obtain ⟨r₁, h₁, h₂⟩ := consumes_append.mp h
      exact ⟨hash.bytes, r₁, readArray_eq_ok_iff.mpr h₁, rest, r', ih.mpr ⟨by simpa using hlen, h₂⟩,
        rfl, rfl⟩

/-- The first hash that is cut short is where the loop stops. -/
theorem readHashes_short (h : r.remaining < 32 * w) :
    readHashes w r = .error (.unexpectedEof (r.offset + 32 * (r.remaining / 32)) 32
      (r.remaining % 32)) := by
  induction w generalizing r with
  | zero => omega
  | succ w ih =>
    by_cases hfits : 32 ≤ r.remaining
    · obtain ⟨r₁, h₁, -⟩ := exists_consumes_rest (List.take_append_drop 32 r.rest).symm
      have htake : (r.rest.take 32).length = 32 := by
        rw [List.length_take, length_rest]
        omega
      have hread : r.readArray 32 = .ok (⟨r.rest.take 32, htake⟩, r₁) :=
        readArray_eq_ok_iff.mpr h₁
      have hleft := h₁.remaining_eq
      have hoffset : r₁.offset = r.offset + 32 := by
        rw [offset, offset, h₁.pos, h₁.baseOffset, htake, Nat.add_assoc]
      rw [htake] at hleft
      rw [readHashes, hread, Outcome.ok_bind]
      simp only
      rw [ih (by omega), Outcome.error_bind, hoffset, hleft]
      congr 2 <;> omega
    · have hread : r.readArray 32 = .error (.unexpectedEof r.offset 32 r.remaining) := by
        have hbytes : r.readBytes 32 = .error (.unexpectedEof r.offset 32 r.remaining) := by
          rw [readBytes, dif_neg (by rw [remaining] at hfits; have := r.pos_le; omega)]
        unfold readArray
        split
        · next e he =>
          obtain rfl := Except.error.inj (he.symm.trans hbytes)
          rfl
        · next b r₁ hb =>
          rw [hbytes] at hb
          cases hb
      rw [readHashes, hread, Outcome.error_bind, Nat.div_eq_of_lt (by omega),
        Nat.mod_eq_of_lt (by omega)]
      rfl

/-- Parses the bytes of the tile at a known coordinate. -/
def fromBytes (coord : TileCoord) (bytes : List UInt8) : Except WireError Tile :=
  match h : readHashes coord.width.get (TlsReader.new bytes) with
  | .error e => .error e
  | .ok (hashes, r) =>
    match r.finish with
    | .error e => .error e
    | .ok () => .ok ⟨coord, hashes, (readHashes_eq_ok_iff.mp h).1⟩

variable {t : Tile} {c : TileCoord}

theorem ext_hashes {t t' : Tile} (hc : t.coord = t'.coord) (hh : t.hashes = t'.hashes) :
    t = t' := by
  cases t
  cases t'
  cases hc
  cases hh
  rfl

theorem length_toBytes (t : Tile) : t.toBytes.length = 32 * t.coord.width.get := by
  rw [toBytes, length_flatMap_asBytes, t.length_hashes]

theorem fromBytes_eq_ok_iff : fromBytes c b = .ok t ↔ t.coord = c ∧ t.toBytes = b := by
  unfold fromBytes
  split
  · next e he =>
    simp only [reduceCtorEq, false_iff, not_and]
    rintro rfl rfl
    obtain ⟨r', h, -⟩ := consumes_and_finish_iff.mpr (rfl : t.toBytes = t.toBytes)
    cases (readHashes_eq_ok_iff.mpr ⟨t.length_hashes, h⟩).symm.trans he
  · next hashes r hr =>
    obtain ⟨hlen, h⟩ := readHashes_eq_ok_iff.mp hr
    split
    · next e he =>
      simp only [reduceCtorEq, false_iff, not_and]
      rintro rfl rfl
      obtain ⟨r', h', hdone⟩ := consumes_and_finish_iff.mpr (rfl : t.toBytes = t.toBytes)
      cases (readHashes_eq_ok_iff.mpr ⟨t.length_hashes, h'⟩).symm.trans hr
      cases hdone.symm.trans he
    · next hdone =>
      obtain rfl := consumes_and_finish_iff.mp ⟨r, h, hdone⟩
      rw [Except.ok.injEq]
      constructor
      · rintro rfl
        exact ⟨rfl, rfl⟩
      · rintro ⟨rfl, hbytes⟩
        obtain ⟨r', h', hdone'⟩ := consumes_and_finish_iff.mpr hbytes
        cases (readHashes_eq_ok_iff.mpr ⟨t.length_hashes, h'⟩).symm.trans hr
        rfl

/-- Bytes enough for `w` hashes are the bytes of `w` hashes. -/
theorem exists_hashes (w : ℕ) (h : b.length = 32 * w) :
    ∃ hashes : List HashOutput, hashes.length = w ∧ hashes.flatMap HashOutput.asBytes = b := by
  induction w generalizing b with
  | zero => exact ⟨[], rfl, (List.length_eq_zero_iff.mp h).symm⟩
  | succ w ih =>
    have htake : (b.take 32).length = 32 := List.length_take_of_le (by omega)
    obtain ⟨hashes, hlen, hbytes⟩ := ih (b := b.drop 32) (by rw [List.length_drop]; omega)
    refine ⟨⟨⟨b.take 32, htake⟩⟩ :: hashes, by rw [List.length_cons, hlen], ?_⟩
    rw [List.flatMap_cons, hbytes]
    exact List.take_append_drop 32 b

/-- Too few bytes end within a hash. -/
theorem fromBytes_short (h : b.length < 32 * c.width.get) :
    fromBytes c b = .error (.unexpectedEof (32 * (b.length / 32)) 32 (b.length % 32)) := by
  have hread := readHashes_short (r := TlsReader.new b) h
  rw [show (TlsReader.new b).offset = 0 from rfl, Nat.zero_add] at hread
  unfold fromBytes
  split
  · next e he =>
    cases he.symm.trans hread
    rfl
  · next hashes r he => cases he.symm.trans hread

/-- More bytes than the width of the coordinate says are left over. -/
theorem fromBytes_long (h : 32 * c.width.get < b.length) :
    fromBytes c b = .error (.trailingBytes (32 * c.width.get) (b.length - 32 * c.width.get)) := by
  have hsplit := List.take_append_drop (32 * c.width.get) b
  obtain ⟨r', hr', hrest⟩ := exists_consumes_rest (r := TlsReader.new b) hsplit.symm
  have hleft : r'.remaining = b.length - 32 * c.width.get := by
    rw [← length_rest, hrest, List.length_drop]
  have hoffset : r'.offset = 32 * c.width.get := by
    rw [offset, hr'.pos, hr'.baseOffset, List.length_take_of_le h.le]
    exact (Nat.zero_add _).trans (Nat.zero_add _)
  have hfinish : r'.finish = .error (.trailingBytes (32 * c.width.get)
      (b.length - 32 * c.width.get)) := by
    rw [finish, if_neg (by rw [isEmpty, decide_eq_true_iff, hleft]; omega), hoffset, hleft]
  obtain ⟨hashes, hlen, hbytes⟩ := exists_hashes c.width.get (List.length_take_of_le h.le)
  have hread := readHashes_eq_ok_iff.mpr ⟨hlen, hbytes ▸ hr'⟩
  unfold fromBytes
  split
  · next e he => cases hread.symm.trans he
  · next hashes' r he =>
    cases hread.symm.trans he
    rw [hfinish]

/-- The bytes of a tile and the parser of tile bytes are exact: a parse succeeds exactly on 32
bytes for each hash of the width, and then gives back the tile these are the bytes of; fewer bytes
are reported at the first hash that is cut short, and more bytes after the last hash. -/
theorem tile_bytes_exact (c : TileCoord) (b : List UInt8) :
    (∀ t, fromBytes c b = .ok t ↔ t.coord = c ∧ t.toBytes = b) ∧
    ((∃ t, fromBytes c b = .ok t) ↔ b.length = 32 * c.width.get) ∧
    (b.length < 32 * c.width.get → fromBytes c b =
      .error (.unexpectedEof (32 * (b.length / 32)) 32 (b.length % 32))) ∧
    (32 * c.width.get < b.length → fromBytes c b =
      .error (.trailingBytes (32 * c.width.get) (b.length - 32 * c.width.get))) := by
  refine ⟨fun t => fromBytes_eq_ok_iff, ?_, fromBytes_short, fromBytes_long⟩
  constructor
  · rintro ⟨t, ht⟩
    obtain ⟨rfl, rfl⟩ := fromBytes_eq_ok_iff.mp ht
    exact t.length_toBytes
  · intro hlen
    obtain ⟨hashes, hh, hbytes⟩ := exists_hashes c.width.get hlen
    exact ⟨⟨c, hashes, hh⟩, fromBytes_eq_ok_iff.mpr ⟨rfl, hbytes⟩⟩

section growth

variable {H : Hasher} {leaves more : List HashOutput} {t t' : Tile} {m n : ℕ}

/-- A stored hash of a tree is the hash stored at its place in every later tree. -/
theorem subtreeRoot_append {level i : ℕ} (hlen : (leaves ++ more).length < 2 ^ 64)
    (hi : (i + 1) * 256 ^ level ≤ leaves.length) :
    subtreeRoot H (leaves ++ more) level i = subtreeRoot H leaves level i := by
  have hle : leaves.length ≤ (leaves ++ more).length := by simp
  rw [subtreeRoot_eq hlen (hi.trans hle), subtreeRoot_eq (by omega) hi, Slices.extract_append hi]

theorem mem_buildTiles : t ∈ buildTiles H leaves ↔
    t.coord.index * 256 < hashesAtLevel (UInt64.ofNat leaves.length) t.coord.level ∧
      buildTile H leaves t.coord.level (hashesAtLevel (UInt64.ofNat leaves.length) t.coord.level)
        t.coord.index = some t := by
  rw [buildTiles, mem_buildTilesFrom]
  constructor
  · rintro ⟨L, N, -, hN, hbuild⟩
    obtain ⟨rfl, rfl, -⟩ := buildTile_spec hbuild
    exact ⟨hN, hbuild⟩
  · rintro ⟨hN, hbuild⟩
    exact ⟨_, _, Nat.zero_le _, hN, hbuild⟩

/-- The tile at a place is not moved by appends and only gains hashes at its end. -/
theorem exists_grown_tile (hlen : (leaves ++ more).length < 2 ^ 64)
    (ht : t ∈ buildTiles H leaves) :
    ∃ t' ∈ buildTiles H (leaves ++ more), t'.position = t.position ∧ t.hashes <+: t'.hashes := by
  obtain ⟨hN, hbuild⟩ := mem_buildTiles.mp ht
  obtain ⟨-, -, hwidth, hget⟩ := buildTile_spec hbuild
  have hshort : leaves.length < 2 ^ 64 := by
    rw [List.length_append] at hlen
    omega
  have hcount : hashesAtLevel (UInt64.ofNat leaves.length) t.coord.level ≤
      hashesAtLevel (UInt64.ofNat (leaves ++ more).length) t.coord.level := by
    rw [hashesAtLevel_eq_div, hashesAtLevel_eq_div, UInt64.toNat_ofNat_of_lt' hlen,
      UInt64.toNat_ofNat_of_lt' hshort]
    exact Nat.div_le_div_right (by simp)
  have hstored := hashesAtLevel_mul_le (UInt64.ofNat leaves.length) t.coord.level
  rw [UInt64.toNat_ofNat_of_lt' hshort] at hstored
  obtain ⟨t', hbuild'⟩ : ∃ t', buildTile H (leaves ++ more) t.coord.level _ t.coord.index =
      some t' := buildTile_isSome (hN.trans_le hcount)
  obtain ⟨hl, hi, hwidth', hget'⟩ := buildTile_spec hbuild'
  refine ⟨t', ?_, position_of_buildTile hbuild', ?_⟩
  · rw [mem_buildTiles, hl, hi]
    exact ⟨hN.trans_le hcount, hbuild'⟩
  · rw [List.prefix_iff_eq_take]
    apply List.ext_getElem?
    intro j
    by_cases hj : j < t.coord.width.get
    · rw [List.getElem?_take_of_lt (by rwa [t.length_hashes]), hget j hj, hget' j (by omega),
        subtreeRoot_append hlen]
      exact (Nat.mul_le_mul_right _ (by omega)).trans hstored
    · rw [List.getElem?_eq_none (by rw [t.length_hashes]; omega), List.getElem?_eq_none]
      rw [List.length_take, t.length_hashes]
      omega

/-- A position holds one tile of a tree. -/
theorem eq_of_position (ht : t ∈ buildTiles H leaves) (ht' : t' ∈ buildTiles H leaves)
    (h : t.position = t'.position) : t = t' := by
  have hb := (mem_buildTiles.mp ht).2
  have hb' := (mem_buildTiles.mp ht').2
  rw [(Prod.mk.inj h).1, (Prod.mk.inj h).2, hb'] at hb
  exact (Option.some.inj hb).symm

theorem eq_of_prefix (h : t.hashes <+: t'.hashes) (hpos : t'.position = t.position)
    (hw : t'.coord.width = t.coord.width) : t' = t := by
  have hhashes := h.eq_of_length (by rw [t.length_hashes, t'.length_hashes, hw])
  refine ext_hashes ?_ hhashes.symm
  obtain ⟨⟨level, index, width⟩, hashes, hlen⟩ := t
  obtain ⟨⟨level', index', width'⟩, hashes', hlen'⟩ := t'
  cases hpos
  cases hw
  rfl

theorem toBytes_prefix (h : t.hashes <+: t'.hashes) : t.toBytes <+: t'.toBytes := by
  obtain ⟨rest, hrest⟩ := h
  exact ⟨rest.flatMap HashOutput.asBytes, by rw [toBytes, toBytes, ← hrest, List.flatMap_append]⟩

theorem take_eq_append (hmn : m ≤ n) :
    leaves.take n = leaves.take m ++ (leaves.take n).drop m := by
  conv_lhs => rw [← List.take_append_drop m (leaves.take n)]
  rw [List.take_take, min_eq_left hmn]

theorem eq_of_path_of_le (hlen : leaves.length < 2 ^ 64) (hmn : m ≤ n)
    (ht : t ∈ buildTiles H (leaves.take m)) (ht' : t' ∈ buildTiles H (leaves.take n))
    (hpath : t.coord.path = t'.coord.path) : t' = t := by
  have hcoord : t.coord = t'.coord := by
    have hread := TileCoord.readPath_path t.coord
    rw [hpath, TileCoord.readPath_path] at hread
    exact (Option.some.inj hread).symm
  have hshort : (leaves.take n).length < 2 ^ 64 := by
    rw [List.length_take]
    omega
  rw [take_eq_append hmn] at ht' hshort
  obtain ⟨u, hu, hpos, hprefix⟩ := exists_grown_tile hshort ht
  obtain rfl : u = t' := eq_of_position hu ht' (by rw [hpos, position, position, hcoord])
  exact eq_of_prefix hprefix hpos (by rw [hcoord])

/-- Whatever sizes of one log they were made at, two tiles with one path are the same tile. -/
theorem eq_of_path (hlen : leaves.length < 2 ^ 64) (ht : t ∈ buildTiles H (leaves.take m))
    (ht' : t' ∈ buildTiles H (leaves.take n)) (hpath : t.coord.path = t'.coord.path) : t = t' := by
  obtain hmn | hnm := Nat.le_total m n
  · exact (eq_of_path_of_le hlen hmn ht ht' hpath).symm
  · exact eq_of_path_of_le hlen hnm ht' ht hpath.symm

/-- Served tiles last. Whatever sizes of one log they were made at, two tiles with one path are
the same tile; and once a tile is served at some place, every later tree has a tile there whose
bytes start with the bytes served before, the very same tile where it was full. -/
theorem served_tiles_last (leaves : List HashOutput) (hlen : leaves.length < 2 ^ 64) :
    (∀ m n, ∀ t ∈ buildTiles H (leaves.take m), ∀ t' ∈ buildTiles H (leaves.take n),
      t.coord.path = t'.coord.path → t = t' ∧ t.toBytes = t'.toBytes) ∧
    ∀ m n, m ≤ n → ∀ t ∈ buildTiles H (leaves.take m), ∃ t' ∈ buildTiles H (leaves.take n),
      t'.position = t.position ∧ t.toBytes <+: t'.toBytes ∧
        (t.coord.width.isPartial = false → t' = t) := by
  constructor
  · intro m n t ht t' ht' hpath
    have heq := eq_of_path hlen ht ht' hpath
    exact ⟨heq, by rw [heq]⟩
  · intro m n hmn t ht
    have hshort : (leaves.take n).length < 2 ^ 64 := by
      rw [List.length_take]
      omega
    rw [take_eq_append hmn] at hshort ⊢
    obtain ⟨t', ht', hpos, hprefix⟩ := exists_grown_tile hshort ht
    refine ⟨t', ht', hpos, toBytes_prefix hprefix, ?_⟩
    intro hfull
    refine eq_of_prefix hprefix hpos (TileWidth.ext ?_)
    have hle := hprefix.length_le
    have hmax := t'.coord.width.le_full
    simp only [TileWidth.isPartial, ne_eq, decide_eq_false_iff_not, not_not] at hfull
    rw [t.length_hashes, t'.length_hashes] at hle
    omega

end growth

/-- What is served for two leaves is the start of what is served for three. -/
theorem served_tiles_last_three :
    ∃ t ∈ buildTiles residueHasher (InclusionProof.sampleLeaves.take 2),
      ∃ t' ∈ buildTiles residueHasher (InclusionProof.sampleLeaves.take 3),
        t'.position = t.position ∧ t.toBytes <+: t'.toBytes := by
  obtain ⟨t, ht⟩ := List.exists_mem_of_length_pos
    (show 0 < (buildTiles residueHasher (InclusionProof.sampleLeaves.take 2)).length by
      decide +kernel)
  obtain ⟨t', ht', hpos, hprefix, -⟩ := (served_tiles_last (H := residueHasher)
    InclusionProof.sampleLeaves (by decide)).2 2 3 (by decide) t ht
  exact ⟨t, ht, t', ht', hpos, hprefix⟩

end Tile

end Mtc
