import MtcCa.Wire.Writer

/-! What a successful read consumes, and the types whose reader accepts exactly what their
writer emits. -/
namespace Mtc

namespace TlsReader

/-- The bytes not read yet. -/
def rest (r : TlsReader) : List UInt8 := r.buf.drop r.pos

/-- `r'` is `r` after reading the bytes `b`. -/
structure Consumes (r : TlsReader) (b : List UInt8) (r' : TlsReader) : Prop where
  rest : r.rest = b ++ r'.rest
  pos : r'.pos = r.pos + b.length
  buf : r'.buf = r.buf
  baseOffset : r'.baseOffset = r.baseOffset
  depth : r'.depth = r.depth
  maxDepth : r'.maxDepth = r.maxDepth

variable {r r' r₁ r₂ : TlsReader} {b c : List UInt8} {n : ℕ}

theorem length_rest : r.rest.length = r.remaining := by
  rw [rest, List.length_drop, remaining]

theorem rest_new (b : List UInt8) : (TlsReader.new b).rest = b := rfl

theorem depth_new (h : n ≤ defaultMaxDepth) (b : List UInt8) :
    (TlsReader.new b).depth + n ≤ (TlsReader.new b).maxDepth := by
  rw [TlsReader.new, Nat.zero_add]
  exact h

theorem isEmpty_iff : r.isEmpty = true ↔ r.rest = [] := by
  rw [isEmpty, decide_eq_true_iff, ← length_rest, List.length_eq_zero_iff]

theorem Consumes.refl (r : TlsReader) : r.Consumes [] r :=
  ⟨rfl, rfl, rfl, rfl, rfl, rfl⟩

theorem Consumes.trans (h : r.Consumes b r₁) (h' : r₁.Consumes c r₂) : r.Consumes (b ++ c) r₂ where
  rest := by rw [h.rest, h'.rest, List.append_assoc]
  pos := by rw [h'.pos, h.pos, List.length_append, Nat.add_assoc]
  buf := h'.buf.trans h.buf
  baseOffset := h'.baseOffset.trans h.baseOffset
  depth := h'.depth.trans h.depth
  maxDepth := h'.maxDepth.trans h.maxDepth

theorem Consumes.remaining_eq (h : r.Consumes b r') : r.remaining = b.length + r'.remaining := by
  rw [← length_rest, ← length_rest, h.rest, List.length_append]

/-- Reading leaves the nesting budget as it is. -/
theorem Consumes.depth_le (h : r.Consumes b r') (hdepth : r.depth + n ≤ r.maxDepth) :
    r'.depth + n ≤ r'.maxDepth := by
  rw [h.depth, h.maxDepth]
  exact hdepth

/-- The bytes read decide the reader after them. -/
theorem Consumes.reader_unique (h : r.Consumes b r₁) (h' : r.Consumes b r₂) : r₁ = r₂ := by
  apply TlsReader.ext
  · exact h.buf.trans h'.buf.symm
  · exact h.pos.trans h'.pos.symm
  · exact h.baseOffset.trans h'.baseOffset.symm
  · exact h.depth.trans h'.depth.symm
  · exact h.maxDepth.trans h'.maxDepth.symm

/-- A reader can be moved over any bytes that come next. -/
theorem exists_consumes (h : b <+: r.rest) : ∃ r', r.Consumes b r' := by
  obtain ⟨t, ht⟩ := h
  have hlen : b.length ≤ r.remaining := by
    rw [← length_rest, ← ht, List.length_append]
    omega
  have hpos := r.pos_le
  refine ⟨{ r with pos := r.pos + b.length, pos_le := by rw [remaining] at hlen; omega },
    ?_, rfl, rfl, rfl, rfl, rfl⟩
  rw [rest, rest, ← List.drop_drop, ← rest, ← ht, List.drop_left]

theorem exists_consumes_rest (h : r.rest = b ++ c) : ∃ r', r.Consumes b r' ∧ r'.rest = c := by
  obtain ⟨r', hr⟩ := exists_consumes (r := r) (b := b) ⟨c, h.symm⟩
  exact ⟨r', hr, List.append_cancel_left (hr.rest.symm.trans h)⟩

/-- Reading something moves the cursor. -/
theorem Consumes.position_ne (h : r.Consumes b r') (hb : b ≠ []) : r'.position ≠ r.position := by
  have hlen := List.length_pos_iff.mpr hb
  rw [position, position, h.pos]
  omega

theorem Consumes.remaining_lt (h : r.Consumes b r') (hb : b ≠ []) : r'.remaining < r.remaining := by
  have hlen := List.length_pos_iff.mpr hb
  have hrem := h.remaining_eq
  omega

theorem consumes_append :
    r.Consumes (b ++ c) r' ↔ ∃ r₁, r.Consumes b r₁ ∧ r₁.Consumes c r' := by
  constructor
  · intro h
    obtain ⟨r₁, h₁, hrest⟩ := exists_consumes_rest (h.rest.trans (List.append_assoc ..))
    obtain ⟨r₂, h₂, -⟩ := exists_consumes_rest hrest
    obtain rfl := (h₁.trans h₂).reader_unique h
    exact ⟨r₁, h₁, h₂⟩
  · rintro ⟨r₁, h₁, h₂⟩
    exact h₁.trans h₂

theorem readBytes_eq_ok_iff : r.readBytes n = .ok (b, r') ↔ b.length = n ∧ r.Consumes b r' := by
  constructor
  · intro h
    refine ⟨length_of_readBytes h, ?_⟩
    have hlen := length_of_readBytes h
    unfold readBytes at h
    split at h
    · next hle =>
      cases h
      refine ⟨?_, by rw [hlen], rfl, rfl, rfl, rfl⟩
      rw [List.extract_eq_take_drop, Nat.add_sub_cancel_left, rest, rest, ← List.drop_drop,
        List.take_append_drop]
    · cases h
  · rintro ⟨rfl, h⟩
    have hle : r.pos + b.length ≤ r.buf.length := by
      rw [← h.pos, ← h.buf]
      exact r'.pos_le
    have htake : r.buf.extract r.pos (r.pos + b.length) = b := by
      rw [List.extract_eq_take_drop, Nat.add_sub_cancel_left, ← rest, h.rest, List.take_left]
    rw [readBytes, dif_pos hle, htake]
    congr 2
    apply TlsReader.ext
    · exact h.buf.symm
    · exact h.pos.symm
    · exact h.baseOffset.symm
    · exact h.depth.symm
    · exact h.maxDepth.symm

theorem readArray_eq_ok_iff {a : Bytes n} :
    r.readArray n = .ok (a, r') ↔ r.Consumes a.toList r' := by
  have hspec : r.readBytes n = .ok (a.toList, r') ↔ _ := readBytes_eq_ok_iff
  rw [and_iff_right a.toList_length] at hspec
  rw [← hspec]
  unfold readArray
  split
  · next e he => simp [he]
  · next b r₁ hb =>
    constructor
    · intro h
      cases h
      exact hb
    · intro h
      cases hb.symm.trans h
      rfl

/-- Reading a big-endian number of `w` bytes. -/
theorem readNumber_eq_ok_iff {ι : Type} {w : ℕ} (ofNat : ℕ → ι) (toNat : ι → ℕ) {v : ι}
    (hlt : ∀ v, toNat v < 256 ^ w) (hnat : ∀ n < 256 ^ w, toNat (ofNat n) = n)
    (hinj : Function.Injective toNat) :
    (do
      let (b, r) ← r.readArray w
      Except.ok (ofNat (BigEndian.decode b.toList), r)) = .ok (v, r') ↔
      r.Consumes (BigEndian.encode w (toNat v)) r' := by
  rw [Outcome.bind_eq_ok_iff]
  constructor
  · rintro ⟨⟨a, r₁⟩, ha, hok⟩
    cases hok
    have hdecode := BigEndian.decode_lt a.toList
    rw [a.toList_length] at hdecode
    rw [hnat _ hdecode]
    have hencode := BigEndian.encode_decode a.toList
    rw [a.toList_length] at hencode
    rw [hencode]
    exact readArray_eq_ok_iff.mp ha
  · intro h
    refine ⟨(⟨BigEndian.encode w (toNat v), BigEndian.length_encode⟩, r'),
      readArray_eq_ok_iff.mpr h, ?_⟩
    have hdecode := BigEndian.decode_encode (hlt v)
    have hv : ofNat (toNat v) = v := hinj (hnat _ (hlt v))
    simp only [List.Vector.toList_mk, hdecode, hv]

theorem readU8_eq_ok_iff {v : UInt8} : r.readU8 = .ok (v, r') ↔ r.Consumes [v] r' := by
  rw [readU8, Outcome.bind_eq_ok_iff]
  constructor
  · rintro ⟨⟨⟨l, hl⟩, r₁⟩, ha, hok⟩
    cases hok
    obtain ⟨x, rfl⟩ := List.length_eq_one_iff.mp hl
    exact readArray_eq_ok_iff.mp ha
  · intro h
    exact ⟨(⟨[v], rfl⟩, r'), readArray_eq_ok_iff.mpr h, rfl⟩

theorem readU16_eq_ok_iff {v : UInt16} :
    r.readU16 = .ok (v, r') ↔ r.Consumes (BigEndian.encode 2 v.toNat) r' :=
  readNumber_eq_ok_iff UInt16.ofNat UInt16.toNat UInt16.toNat_lt
    (fun _ hn => UInt16.toNat_ofNat_of_lt' hn) (fun _ _ => UInt16.toNat_inj.mp)

theorem readU32_eq_ok_iff {v : UInt32} :
    r.readU32 = .ok (v, r') ↔ r.Consumes (BigEndian.encode 4 v.toNat) r' :=
  readNumber_eq_ok_iff UInt32.ofNat UInt32.toNat UInt32.toNat_lt
    (fun _ hn => UInt32.toNat_ofNat_of_lt' hn) (fun _ _ => UInt32.toNat_inj.mp)

theorem toNat_fromLow24 {n : ℕ} (h : n < 2 ^ 24) :
    (U24.fromLow24 (UInt32.ofNat n)).get.toNat = n := by
  have hsize : n < UInt32.size := lt_trans h (by decide)
  rw [U24.fromLow24, UInt32.toNat_and, UInt32.toNat_ofNat_of_lt' hsize]
  exact (Nat.and_two_pow_sub_one_eq_mod n 24).trans (Nat.mod_eq_of_lt h)

theorem readU24_eq_ok_iff {v : U24} :
    r.readU24 = .ok (v, r') ↔ r.Consumes (BigEndian.encode 3 v.get.toNat) r' := by
  refine readNumber_eq_ok_iff (fun n => U24.fromLow24 (UInt32.ofNat n)) (fun v => v.get.toNat)
    U24.get_lt (fun _ hn => toNat_fromLow24 hn) ?_
  rintro ⟨a, ha⟩ ⟨b, hb⟩ h
  obtain rfl := UInt32.toNat_inj.mp h
  rfl

/-- `readLen` reads a big-endian length of `w` bytes. -/
def ReadsLen (w : ℕ) (readLen : TlsReader → Except WireError (ℕ × TlsReader)) : Prop :=
  ∀ r n r', readLen r = .ok (n, r') ↔ n < 256 ^ w ∧ r.Consumes (BigEndian.encode w n) r'

theorem readsLenU8 : ReadsLen 1 readLenU8 := by
  intro r n r'
  rw [readLenU8, Outcome.bind_eq_ok_iff]
  constructor
  · rintro ⟨⟨v, r₁⟩, hv, hok⟩
    cases hok
    refine ⟨v.toNat_lt, ?_⟩
    have hencode := BigEndian.encode_decode [v]
    rw [BigEndian.decode, List.foldl_cons, List.foldl_nil, Nat.mul_zero, Nat.zero_add] at hencode
    exact hencode.symm ▸ readU8_eq_ok_iff.mp hv
  · rintro ⟨hn, h⟩
    refine ⟨(UInt8.ofNat n, r'), readU8_eq_ok_iff.mpr h, ?_⟩
    simp only [UInt8.toNat_ofNat_of_lt' hn]

theorem readsLenU16 : ReadsLen 2 readLenU16 := by
  intro r n r'
  rw [readLenU16, Outcome.bind_eq_ok_iff]
  constructor
  · rintro ⟨⟨v, r₁⟩, hv, hok⟩
    cases hok
    exact ⟨v.toNat_lt, readU16_eq_ok_iff.mp hv⟩
  · rintro ⟨hn, h⟩
    have hnat : (UInt16.ofNat n).toNat = n := UInt16.toNat_ofNat_of_lt' hn
    refine ⟨(UInt16.ofNat n, r'), readU16_eq_ok_iff.mpr (by rwa [hnat]), ?_⟩
    simp only [hnat]

theorem readsLenU24 : ReadsLen 3 readLenU24 := by
  intro r n r'
  rw [readLenU24, Outcome.bind_eq_ok_iff]
  constructor
  · rintro ⟨⟨v, r₁⟩, hv, hok⟩
    cases hok
    exact ⟨v.get_lt, readU24_eq_ok_iff.mp hv⟩
  · rintro ⟨hn, h⟩
    have hnat := toNat_fromLow24 hn
    refine ⟨(U24.fromLow24 (UInt32.ofNat n), r'), readU24_eq_ok_iff.mpr (by rwa [hnat]), ?_⟩
    simp only [hnat]

theorem takeBody_eq_ok_iff : r.takeBody n = .ok (b, r') ↔ b.length = n ∧ r.Consumes b r' := by
  rw [takeBody, Outcome.ite_error_eq_ok_iff, readBytes_eq_ok_iff, and_iff_right_iff_imp]
  rintro ⟨rfl, h⟩
  rw [h.remaining_eq]
  omega

end TlsReader

theorem writeOpaque_eq_ok_iff {w : ℕ} {b e : List UInt8} :
    writeOpaque w b = .ok e ↔ b.length < 256 ^ w ∧ e = BigEndian.encode w b.length ++ b := by
  rw [writeOpaque, Outcome.ite_else_error_eq_ok_iff, Except.ok.injEq, eq_comm (a := e)]

namespace TlsReader

variable {r r' : TlsReader} {b : List UInt8} {w : ℕ} {α : Type}
  {readLen : TlsReader → Except WireError (ℕ × TlsReader)}

/-- Reading behind a length prefix undoes writing behind it. -/
theorem readOpaque_eq_ok_iff (hlen : ReadsLen w readLen) :
    r.readOpaque readLen = .ok (b, r') ↔ ∃ e, writeOpaque w b = .ok e ∧ r.Consumes e r' := by
  rw [readOpaque, Outcome.bind_eq_ok_iff]
  constructor
  · rintro ⟨⟨n, r₁⟩, hn, hbody⟩
    obtain ⟨hlt, h₁⟩ := (hlen _ _ _).mp hn
    obtain ⟨rfl, h₂⟩ := takeBody_eq_ok_iff.mp hbody
    exact ⟨_, writeOpaque_eq_ok_iff.mpr ⟨hlt, rfl⟩, h₁.trans h₂⟩
  · rintro ⟨e, he, h⟩
    obtain ⟨hlt, rfl⟩ := writeOpaque_eq_ok_iff.mp he
    obtain ⟨r₁, h₁, h₂⟩ := consumes_append.mp h
    exact ⟨(b.length, r₁), (hlen _ _ _).mpr ⟨hlt, h₁⟩, takeBody_eq_ok_iff.mpr ⟨rfl, h₂⟩⟩

theorem readScoped_eq_ok_iff {len : ℕ} {body : TlsReader → Except WireError (α × TlsReader)} {v : α}
    (hdepth : r.depth < r.maxDepth) :
    r.readScoped len body = .ok (v, r') ↔ ∃ b, b.length = len ∧ r.Consumes b r' ∧
      ∃ sub, body (r.scope b) = .ok (v, sub) ∧ sub.rest = [] := by
  rw [readScoped, if_neg (by omega), Outcome.bind_eq_ok_iff]
  constructor
  · rintro ⟨⟨b, r₁⟩, hb, hbody⟩
    obtain ⟨⟨v', sub⟩, hsub, hfin⟩ := Outcome.bind_eq_ok_iff.mp hbody
    obtain ⟨hempty, hok⟩ := Outcome.ite_error_eq_ok_iff.mp hfin
    cases hok
    obtain ⟨hlen, h⟩ := takeBody_eq_ok_iff.mp hb
    exact ⟨b, hlen, h, sub, hsub, isEmpty_iff.mp (not_not.mp hempty)⟩
  · rintro ⟨b, hlen, h, sub, hsub, hrest⟩
    refine ⟨(b, r'), takeBody_eq_ok_iff.mpr ⟨hlen, h⟩, ?_⟩
    refine Outcome.bind_eq_ok_iff.mpr ⟨(v, sub), hsub, ?_⟩
    exact Outcome.ite_error_eq_ok_iff.mpr ⟨not_not.mpr (isEmpty_iff.mpr hrest), rfl⟩

end TlsReader

section vectors

variable {α : Type} [TlsSerialize α] {P : α → Prop} {d w : ℕ}

/-- No value is written as nothing. -/
def NeverEmpty (α : Type) [TlsSerialize α] : Prop :=
  ∀ (v : α) b, tlsSerialize v = .ok b → b ≠ []

theorem foldlM_serialize_eq_ok_iff {items : List α} {acc b : List UInt8} :
    items.foldlM (fun body item => do
      let bytes ← tlsSerialize item
      .ok (body ++ bytes)) acc = (.ok b : Except WriteError _) ↔
      ∃ c, serializeItems items = .ok c ∧ b = acc ++ c := by
  induction items generalizing acc b with
  | nil =>
    constructor
    · intro h
      cases h
      exact ⟨[], rfl, (List.append_nil _).symm⟩
    · rintro ⟨c, hc, rfl⟩
      cases hc
      rw [List.append_nil]
      rfl
  | cons item items ih =>
    simp only [serializeItems, List.foldlM_cons, Outcome.bind_eq_ok_iff, Except.ok.injEq]
    constructor
    · rintro ⟨_, ⟨bytes, hbytes, rfl⟩, hrest⟩
      obtain ⟨c, hc, rfl⟩ := ih.mp hrest
      exact ⟨bytes ++ c, ⟨_, ⟨bytes, hbytes, rfl⟩, ih.mpr ⟨c, hc, rfl⟩⟩, List.append_assoc ..⟩
    · rintro ⟨_, ⟨_, ⟨bytes, hbytes, rfl⟩, hrest⟩, rfl⟩
      obtain ⟨c, hc, rfl⟩ := ih.mp hrest
      exact ⟨_, ⟨bytes, hbytes, rfl⟩, ih.mpr ⟨c, hc, (List.append_assoc ..).symm⟩⟩

theorem serializeItems_cons_eq_ok_iff {item : α} {items : List α} {b : List UInt8} :
    serializeItems (item :: items) = .ok b ↔ ∃ b₁ b₂, tlsSerialize item = .ok b₁ ∧
      serializeItems items = .ok b₂ ∧ b = b₁ ++ b₂ := by
  rw [serializeItems, List.foldlM_cons, Outcome.bind_eq_ok_iff]
  constructor
  · rintro ⟨acc, hacc, hrest⟩
    obtain ⟨b₁, hb₁, hok⟩ := Outcome.bind_eq_ok_iff.mp hacc
    cases hok
    obtain ⟨b₂, hb₂, rfl⟩ := foldlM_serialize_eq_ok_iff.mp hrest
    exact ⟨b₁, b₂, hb₁, hb₂, rfl⟩
  · rintro ⟨b₁, b₂, hb₁, hb₂, rfl⟩
    exact ⟨b₁, by rw [hb₁]; rfl, foldlM_serialize_eq_ok_iff.mpr ⟨b₂, hb₂, rfl⟩⟩

theorem eq_nil_of_serializeItems (hne : NeverEmpty α) {items : List α}
    (h : serializeItems items = .ok []) : items = [] := by
  cases items with
  | nil => rfl
  | cons item items =>
    obtain ⟨b₁, b₂, hb₁, -, hnil⟩ := serializeItems_cons_eq_ok_iff.mp h
    exact absurd (List.append_eq_nil_iff.mp hnil.symm).1 (hne item b₁ hb₁)

/-- What the item loop has read when it stops: items whose encodings fill the body. -/
def ReadsItems (P : α → Prop) (sub : TlsReader) (items : List α) (sub' : TlsReader) : Prop :=
  (∀ v ∈ items, P v) ∧ ∃ b, serializeItems items = .ok b ∧ sub.Consumes b sub' ∧ sub'.rest = []

theorem readsItems_of_rest_nil (hne : NeverEmpty α) {sub sub' : TlsReader} {items : List α}
    (hrest : sub.rest = []) : ReadsItems P sub items sub' ↔ items = [] ∧ sub' = sub := by
  constructor
  · rintro ⟨-, b, hb, h, hrest'⟩
    have hnil : b = [] := by
      have := h.rest
      rw [hrest, hrest', List.append_nil] at this
      exact this.symm
    subst hnil
    exact ⟨eq_nil_of_serializeItems hne hb, h.reader_unique (.refl sub)⟩
  · rintro ⟨rfl, rfl⟩
    exact ⟨by simp, [], rfl, .refl _, hrest⟩

/-- At the end of the body the loop has nothing more to read. -/
theorem stops_iff (hne : NeverEmpty α) {sub sub' : TlsReader} {acc items : List α}
    (hrest : sub.rest = []) :
    (.ok (acc, sub) : Except WireError _) = .ok (items, sub') ∧ sub'.rest = [] ↔
      ∃ new, items = acc ++ new ∧ ReadsItems P sub new sub' := by
  simp only [readsItems_of_rest_nil hne hrest]
  constructor
  · rintro ⟨hok, -⟩
    cases hok
    exact ⟨[], (List.append_nil _).symm, rfl, rfl⟩
  · rintro ⟨_, rfl, rfl, rfl⟩
    exact ⟨by rw [List.append_nil], hrest⟩

theorem readsItems_cons {sub sub' : TlsReader} {item : α} {items : List α} :
    ReadsItems P sub (item :: items) sub' ↔ P item ∧ ∃ b sub₁, tlsSerialize item = .ok b ∧
      sub.Consumes b sub₁ ∧ ReadsItems P sub₁ items sub' := by
  constructor
  · rintro ⟨hall, b, hb, h, hrest⟩
    obtain ⟨b₁, b₂, hb₁, hb₂, rfl⟩ := serializeItems_cons_eq_ok_iff.mp hb
    obtain ⟨sub₁, h₁, h₂⟩ := TlsReader.consumes_append.mp h
    obtain ⟨hitem, hitems⟩ := List.forall_mem_cons.mp hall
    exact ⟨hitem, b₁, sub₁, hb₁, h₁, hitems, b₂, hb₂, h₂, hrest⟩
  · rintro ⟨hitem, b₁, sub₁, hb₁, h₁, hitems, b₂, hb₂, h₂, hrest⟩
    exact ⟨List.forall_mem_cons.mpr ⟨hitem, hitems⟩, b₁ ++ b₂,
      serializeItems_cons_eq_ok_iff.mpr ⟨b₁, b₂, hb₁, hb₂, rfl⟩, h₁.trans h₂, hrest⟩

variable [TlsParse α]

/-- Parsing accepts exactly the encodings of the values in `P`, with `d` levels of nesting
to spare. -/
def Canonical (P : α → Prop) (d : ℕ) : Prop :=
  ∀ r r' v, r.depth + d ≤ r.maxDepth →
    (tlsParse r = .ok (v, r') ↔ P v ∧ ∃ b, tlsSerialize v = .ok b ∧ r.Consumes b r')

namespace TlsReader

theorem readItemsLoop_eq_ok_iff (hcan : Canonical P d) (hne : NeverEmpty α) {fuel : ℕ}
    {sub sub' : TlsReader} {acc items : List α} (hdepth : sub.depth + d ≤ sub.maxDepth)
    (hfuel : sub.remaining ≤ fuel) :
    readItemsLoop tlsParse fuel sub acc = .ok (items, sub') ∧ sub'.rest = [] ↔
      ∃ new, items = acc ++ new ∧ ReadsItems P sub new sub' := by
  induction fuel generalizing sub acc with
  | zero =>
    have hrest : sub.rest = [] := by
      rw [← List.length_eq_zero_iff, length_rest]
      omega
    exact stops_iff hne hrest
  | succ fuel ih =>
    unfold readItemsLoop
    by_cases hempty : sub.isEmpty = true
    · rw [if_pos hempty]
      exact stops_iff hne (isEmpty_iff.mp hempty)
    · rw [if_neg hempty, Outcome.bind_eq_ok_iff]
      constructor
      · rintro ⟨⟨⟨item, sub₁⟩, hparse, hloop⟩, hrest⟩
        obtain ⟨hitem, b, hb, h⟩ := (hcan _ _ _ hdepth).mp hparse
        obtain ⟨-, hloop⟩ := Outcome.ite_error_eq_ok_iff.mp hloop
        have hrem := h.remaining_lt (hne item b hb)
        obtain ⟨new, rfl, hnew⟩ := (ih (h.depth_le hdepth) (by omega)).mp ⟨hloop, hrest⟩
        exact ⟨item :: new, by simp, readsItems_cons.mpr ⟨hitem, b, sub₁, hb, h, hnew⟩⟩
      · rintro ⟨new, rfl, hnew⟩
        cases new with
        | nil =>
          obtain ⟨-, b, hb, h, hrest⟩ := hnew
          cases hb
          exact absurd (isEmpty_iff.mpr (by rw [h.rest, hrest]; rfl)) hempty
        | cons item new =>
          obtain ⟨hitem, b, sub₁, hb, h, hnew⟩ := readsItems_cons.mp hnew
          have hrem := h.remaining_lt (hne item b hb)
          have hmoved := h.position_ne (hne item b hb)
          obtain ⟨hloop, hrest⟩ : readItemsLoop tlsParse fuel sub₁ (acc ++ [item]) =
              .ok (acc ++ item :: new, sub') ∧ _ :=
            (ih (h.depth_le hdepth) (by omega)).mpr ⟨new, by simp, hnew⟩
          refine ⟨⟨(item, sub₁), (hcan _ _ _ hdepth).mpr ⟨hitem, b, hb, h⟩, ?_⟩, hrest⟩
          exact Outcome.ite_error_eq_ok_iff.mpr ⟨hmoved, hloop⟩

theorem readItems_eq_ok_iff (hcan : Canonical P d) (hne : NeverEmpty α) {r r' : TlsReader}
    {len : ℕ} {items : List α} (hdepth : r.depth + (d + 1) ≤ r.maxDepth) :
    r.readItems len = .ok (items, r') ↔ (∀ v ∈ items, P v) ∧
      ∃ b, serializeItems items = .ok b ∧ b.length = len ∧ r.Consumes b r' := by
  rw [readItems, readScoped_eq_ok_iff (by omega)]
  have hloop : ∀ {b : List UInt8} {sub : TlsReader},
      readItemsLoop tlsParse (r.scope b).remaining (r.scope b) [] = .ok (items, sub) ∧
        sub.rest = [] ↔ ReadsItems P (r.scope b) items sub := by
    intro b sub
    have hscope : (r.scope b).depth + d ≤ (r.scope b).maxDepth := by
      simp only [scope]
      omega
    rw [readItemsLoop_eq_ok_iff hcan hne hscope (le_refl _)]
    simp
  simp only [hloop]
  constructor
  · rintro ⟨b, hlen, h, sub, hall, c, hc, hsub, hrest⟩
    have hb : b = c := by
      have := hsub.rest
      rwa [hrest, List.append_nil] at this
    subst hb
    exact ⟨hall, b, hc, hlen, h⟩
  · rintro ⟨hall, b, hb, hlen, h⟩
    obtain ⟨sub, hsub⟩ := exists_consumes (r := r.scope b) (b := b) (List.prefix_refl b)
    refine ⟨b, hlen, h, sub, hall, b, hb, hsub, ?_⟩
    have := hsub.rest
    exact List.self_eq_append_right.mp this

/-- Reading a vector undoes writing it. -/
theorem readVector_eq_ok_iff (hcan : Canonical P d) (hne : NeverEmpty α)
    {readLen : TlsReader → Except WireError (ℕ × TlsReader)} (hlen : ReadsLen w readLen)
    {r r' : TlsReader} {items : List α} (hdepth : r.depth + (d + 1) ≤ r.maxDepth) :
    r.readVector readLen = .ok (items, r') ↔ (∀ v ∈ items, P v) ∧
      ∃ e, writeVector w items = .ok e ∧ r.Consumes e r' := by
  rw [readVector, Outcome.bind_eq_ok_iff]
  constructor
  · rintro ⟨⟨n, r₁⟩, hn, hitems⟩
    obtain ⟨hlt, h₁⟩ := (hlen _ _ _).mp hn
    rw [readItems_eq_ok_iff hcan hne (h₁.depth_le hdepth)] at hitems
    obtain ⟨hall, b, hb, rfl, h₂⟩ := hitems
    exact ⟨hall, _, Outcome.bind_eq_ok_iff.mpr ⟨b, hb, writeOpaque_eq_ok_iff.mpr ⟨hlt, rfl⟩⟩,
      h₁.trans h₂⟩
  · rintro ⟨hall, e, he, h⟩
    obtain ⟨b, hb, he⟩ := Outcome.bind_eq_ok_iff.mp he
    obtain ⟨hlt, rfl⟩ := writeOpaque_eq_ok_iff.mp he
    obtain ⟨r₁, h₁, h₂⟩ := consumes_append.mp h
    refine ⟨(b.length, r₁), (hlen _ _ _).mpr ⟨hlt, h₁⟩, ?_⟩
    exact (readItems_eq_ok_iff hcan hne (h₁.depth_le hdepth)).mpr ⟨hall, b, hb, rfl, h₂⟩

theorem finish_eq_ok_iff {r : TlsReader} : r.finish = .ok () ↔ r.rest = [] := by
  rw [finish, Outcome.ite_else_error_eq_ok_iff, isEmpty_iff, and_iff_left rfl]

/-- A reader that has consumed its whole input has consumed exactly that input. -/
theorem consumes_and_finish_iff {b c : List UInt8} :
    (∃ r', (TlsReader.new b).Consumes c r' ∧ r'.finish = .ok ()) ↔ c = b := by
  constructor
  · rintro ⟨r', h, hdone⟩
    have hrest := h.rest
    rw [finish_eq_ok_iff.mp hdone, List.append_nil, rest_new] at hrest
    exact hrest.symm
  · rintro rfl
    obtain ⟨r', h⟩ := exists_consumes (r := TlsReader.new c) (b := c) (List.prefix_refl c)
    exact ⟨r', h, finish_eq_ok_iff.mpr (List.self_eq_append_right.mp h.rest)⟩

end TlsReader

/-- A whole byte string parses as a value exactly when it is that value's encoding. -/
theorem tlsParseExact_eq_ok_iff (hcan : Canonical P d) (hd : d ≤ TlsReader.defaultMaxDepth)
    {b : List UInt8} {v : α} : tlsParseExact b = .ok v ↔ P v ∧ tlsSerialize v = .ok b := by
  have hdepth := TlsReader.depth_new hd b
  rw [tlsParseExact, Outcome.bind_eq_ok_iff]
  constructor
  · rintro ⟨⟨v', r'⟩, hparse, hfin⟩
    obtain ⟨⟨⟩, hdone, hok⟩ := Outcome.bind_eq_ok_iff.mp hfin
    cases hok
    obtain ⟨hv, c, hc, h⟩ := (hcan _ _ _ hdepth).mp hparse
    obtain rfl := TlsReader.consumes_and_finish_iff.mp ⟨r', h, hdone⟩
    exact ⟨hv, hc⟩
  · rintro ⟨hv, hb⟩
    obtain ⟨r', h, hdone⟩ := TlsReader.consumes_and_finish_iff.mpr (rfl : b = b)
    refine ⟨(v, r'), (hcan _ _ _ hdepth).mpr ⟨hv, b, hb, h⟩, ?_⟩
    exact Outcome.bind_eq_ok_iff.mpr ⟨(), hdone, rfl⟩

end vectors

theorem canonical_bytes {n : ℕ} : Canonical (fun _ : Bytes n => True) 0 := by
  intro r r' v _
  refine TlsReader.readArray_eq_ok_iff.trans ?_
  constructor
  · exact fun h => ⟨trivial, v.toList, rfl, h⟩
  · rintro ⟨-, b, hb, h⟩
    cases hb
    exact h

theorem neverEmpty_bytes {n : ℕ} (hn : 0 < n) : NeverEmpty (Bytes n) := by
  intro v b hb hnil
  cases hb
  have hlen := v.toList_length
  rw [hnil, List.length_nil] at hlen
  omega

end Mtc
