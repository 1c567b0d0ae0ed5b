import MtcCa.Wire.Bounded

/-! What the cursor's operations depend on: the bytes they take and no others; and which cursors
an element parser is run on (`crates/mtc/src/wire/reader.rs`). -/
namespace Mtc

open Mutating

namespace Cursor

variable {α β : Type} {r t : Cursor} {n w len : ℕ}

/-- The cursor over other bytes, at the same position. -/
def withBuf (r : Cursor) (buf : List UInt8) : Cursor := { r with buf := buf }

/-- Where the operation succeeds on `r`, it moves forward, and over any bytes that agree with
those of `r` from where it starts to where it ends it does the same. -/
def LocalAt (m : Parser α) (r : Cursor) : Prop :=
  ∀ a t, m r = some (.ok a, t) → Moved r t ∧
    ∀ buf : List UInt8, t.pos ≤ buf.length →
      buf.extract r.pos t.pos = r.buf.extract r.pos t.pos →
        m (r.withBuf buf) = some (.ok a, t.withBuf buf)

theorem LocalAt.pure (h : r.InBounds) (a : α) : LocalAt (pure a : Parser α) r := by
  intro b t hb
  cases hb
  exact ⟨Moved.refl h, fun _ _ _ => rfl⟩

theorem extract_eq_of_extract_eq {l l' : List UInt8} {a b c : ℕ} (hab : a ≤ b) (hbc : b ≤ c)
    (h : l.extract a c = l'.extract a c) :
    l.extract a b = l'.extract a b ∧ l.extract b c = l'.extract b c := by
  have hb : a + (b - a) = b := by omega
  constructor
  · have htake := congrArg (List.take (b - a)) h
    rwa [Slices.take_extract (by omega), Slices.take_extract (by omega), hb] at htake
  · have hdrop := congrArg (List.drop (b - a)) h
    rwa [Slices.drop_extract, Slices.drop_extract, hb] at hdrop

theorem LocalAt.bind {m : Parser α} {f : α → Parser β} (hm : LocalAt m r)
    (hf : ∀ a t, m r = some (.ok a, t) → LocalAt (f a) t) : LocalAt (m >>= f) r := by
  intro b u hb
  obtain ⟨a, t, ha, hfa⟩ := bind_eq_ok hb
  obtain ⟨hrt, hsame⟩ := hm a t ha
  obtain ⟨htu, hsame'⟩ := hf a t ha b u hfa
  refine ⟨hrt.trans htu, ?_⟩
  intro buf hlen hbytes
  obtain ⟨hfirst, hrest⟩ := extract_eq_of_extract_eq hrt.pos_le htu.pos_le hbytes
  rw [← hrt.buf_eq] at hrest
  rw [bind_of_ok (hsame buf (htu.pos_le.trans hlen) hfirst)]
  exact hsame' buf hlen hrest

theorem localAt_readBytes (h : r.InBounds) (n : ℕ) : LocalAt (readBytes n) r := by
  intro b t hb
  have htook := (readBytes_ends h n).of_ok hb
  refine ⟨htook.moved, ?_⟩
  obtain ⟨hle, rfl, rfl⟩ := htook
  intro buf hlen hbytes
  have hw : r.pos + n < 2 ^ 64 := by
    by_contra hw
    rw [readBytes_of_not_le h (fun hn => hw hn.2)] at hb
    cases hb
  change buf.extract r.pos (r.pos + n) = r.buf.extract r.pos (r.pos + n) at hbytes
  have hread := readBytes_of_le (r := r.withBuf buf) hlen hw
  rw [hread, ← hbytes]
  rfl

theorem localAt_readArray (h : r.InBounds) (n : ℕ) : LocalAt (readArray n) r := by
  apply (localAt_readBytes h n).bind
  intro b t hb
  have htook := (readBytes_ends h n).of_ok hb
  rw [dif_pos htook.length_eq]
  exact LocalAt.pure htook.moved.inBounds _

theorem localAt_readValue (h : r.InBounds) (f : Bytes n → β) :
    LocalAt (readArray n >>= fun b => pure (f b)) r := by
  apply (localAt_readArray h n).bind
  intro b t hb
  exact LocalAt.pure ((readArray_ends h n).of_ok hb).moved.inBounds _

theorem takeBody_eq (h : r.InBounds) (hlen : len ≤ r.buf.length - r.pos) :
    takeBody len r = readBytes len r := by
  rw [takeBody, remaining_bind h, if_neg (Nat.not_lt.mpr hlen)]

theorem localAt_takeBody (h : r.InBounds) (len : ℕ) : LocalAt (takeBody len) r := by
  intro b t hb
  have htook := (takeBody_ends h len).of_ok hb
  have hle := htook.le_length
  rw [takeBody_eq h (by omega)] at hb
  obtain ⟨hmoved, hsame⟩ := localAt_readBytes h len b t hb
  refine ⟨hmoved, ?_⟩
  intro buf hlen hbytes
  have hpos : t.pos = r.pos + len := congrArg Cursor.pos htook.after
  have hin : (r.withBuf buf).InBounds := hmoved.pos_le.trans hlen
  rw [takeBody_eq hin]
  · exact hsame buf hlen hbytes
  · change len ≤ buf.length - r.pos
    omega

theorem localAt_readNumber (h : r.InBounds) (f : Bytes n → α) (toNat : α → β) :
    LocalAt ((readArray n >>= fun b => pure (f b)) >>= fun v => pure (toNat v)) r := by
  apply (localAt_readValue h f).bind
  intro v t hv
  obtain ⟨b, hb, -⟩ := (readValue_ends h f).of_ok hv
  exact LocalAt.pure hb.moved.inBounds _

theorem localAt_readLenU8 (h : r.InBounds) : LocalAt readLenU8 r := localAt_readNumber h _ _

theorem localAt_readLenU16 (h : r.InBounds) : LocalAt readLenU16 r := localAt_readNumber h _ _

theorem localAt_readLenU24 (h : r.InBounds) : LocalAt readLenU24 r := localAt_readNumber h _ _

/-- What a scoped parser does depends on the body alone, which a cursor of its own holds. -/
theorem localAt_readScoped (h : r.InBounds) (len : ℕ) (body : Parser α) :
    LocalAt (readScoped len body) r := by
  intro a t ha
  by_cases hdepth : r.maxDepth ≤ r.depth
  · rw [readScoped_of_le hdepth] at ha
    cases ha
  · rw [readScoped_of_not_le hdepth] at ha
    obtain ⟨b, s, hb, hon⟩ := bind_eq_ok ha
    obtain ⟨rfl, sub, hsub⟩ := on_eq_ok hon
    obtain ⟨hmoved, hsame⟩ := localAt_takeBody h len b t hb
    refine ⟨hmoved, ?_⟩
    intro buf hlen hbytes
    rw [readScoped_of_not_le (r := r.withBuf buf) hdepth, bind_of_ok (hsame buf hlen hbytes)]
    exact on_of_ok hsub

theorem localAt_prefixed {readLen : Parser ℕ} {f : ℕ → Parser α} (hlen : IsPrefix w readLen)
    (hread : LocalAt readLen r) (h : r.InBounds) (hf : ∀ t n, t.InBounds → LocalAt (f n) t) :
    LocalAt (readLen >>= f) r := by
  apply hread.bind
  intro n t hn
  obtain ⟨b, hb, -⟩ := (hlen r h).of_ok hn
  exact hf t n hb.moved.inBounds

/-! ### The cursors that an element parser is run on -/

variable {parse parse' : Parser α} {fuel : ℕ} {items : List α}

/-- The loop runs the parser only on cursors that it moved to itself. -/
theorem readItemsLoop_congr (hparse : Forward parse) (h : r.InBounds)
    (hcongr : ∀ c, Moved r c → parse c = parse' c) :
    readItemsLoop parse fuel items r = readItemsLoop parse' fuel items r := by
  induction fuel generalizing r items with
  | zero => rfl
  | succ fuel ih =>
    rw [readItemsLoop_succ parse h, readItemsLoop_succ parse' h]
    have hsame := hcongr r (Moved.refl h)
    split
    · rfl
    · rcases hparse r h with ⟨a, t, ha, ht⟩ | ⟨e, t, he, -⟩
      · rw [bind_of_ok ha, bind_of_ok (hsame.symm.trans ha), position_bind, position_bind]
        split
        · rfl
        · exact ih ht.inBounds (fun c hc => hcongr c (ht.trans hc))
      · rw [bind_of_error he, bind_of_error (hsame.symm.trans he)]

/-- Parsers that agree on every cursor within the body, where the body lies within the bytes and
one more level is allowed, give the same items. -/
theorem readItems_congr (hparse : Forward parse) (h : r.InBounds)
    (hcongr : ∀ c, r.pos + len ≤ r.buf.length → r.depth < r.maxDepth → Moved (r.scope len) c →
      parse c = parse' c) :
    readItems parse len r = readItems parse' len r := by
  unfold readItems
  by_cases hdepth : r.maxDepth ≤ r.depth
  · rw [readScoped_of_le hdepth, readScoped_of_le hdepth]
  · rw [readScoped_of_not_le hdepth, readScoped_of_not_le hdepth]
    rcases takeBody_ends h len with ⟨b, t, hb, htook⟩ | ⟨e, t, he, -⟩
    · have hsub : (⟨b, 0, r.baseOffset + r.pos, r.depth + 1, r.maxDepth⟩ : Cursor) =
          r.scope len := by
        rw [htook.bytes]
        rfl
      have hloop (k : ℕ) : readItemsLoop parse k [] (r.scope len) =
          readItemsLoop parse' k [] (r.scope len) :=
        readItemsLoop_congr hparse (scope_inBounds r len)
          (fun c hc => hcongr c htook.le_length (Nat.lt_of_not_le hdepth) hc)
      rw [bind_of_ok hb, bind_of_ok hb, hsub]
      apply on_congr
      apply bind_congr_apply
      rw [remaining_bind (scope_inBounds r len), remaining_bind (scope_inBounds r len)]
      exact hloop _
    · rw [bind_of_error he, bind_of_error he]

/-- A cursor within the body of `r` lies within the bytes of `r`, one level deeper. -/
theorem window_of_moved {c : Cursor} (hle : r.pos + len ≤ r.buf.length)
    (hdepth : r.depth < r.maxDepth) (h : Moved (r.scope len) c) :
    c.buf = r.buf.extract r.pos (r.pos + len) ∧ c.pos ≤ len ∧
      c.baseOffset = r.baseOffset + r.pos ∧ c.depth = r.depth + 1 ∧ c.depth ≤ c.maxDepth := by
  obtain ⟨p, rfl, -, hp⟩ := h
  have hlen : (r.scope len).buf.length = len := by
    change (r.buf.extract r.pos (r.pos + len)).length = len
    rw [Slices.length_extract hle]
    omega
  rw [hlen] at hp
  exact ⟨rfl, hp, rfl, rfl, hdepth⟩

/-- A round that does not move the cursor ends the loop with an error. -/
theorem readItemsLoop_zeroWidth {a : α} (h : r.InBounds) (hne : r.pos < r.buf.length)
    (hparse : parse r = some (.ok a, t)) (hpos : t.pos = r.pos) :
    readItemsLoop parse (fuel + 1) items r =
      some (.error (.zeroWidthElement (t.baseOffset + t.pos)), t) := by
  rw [readItemsLoop_succ parse h, if_neg (Nat.sub_ne_zero_of_lt hne), bind_of_ok hparse,
    position_bind, if_pos hpos]
  rfl

/-! ### The operations together -/

/-- From a cursor within its bytes the operation ends. It leaves the cursor within the bytes; a
value moves it over exactly `size` bytes and meets `P`; and no other bytes are read for it. -/
structure Bounded (op : Parser α) (size : Cursor → ℕ) (P : Cursor → α → Prop) : Prop where
  ends : ∀ r : Cursor, r.InBounds →
    Ends op r (fun a t => t = r.moveTo (r.pos + size r) ∧ t.InBounds ∧ P r a)
      (fun _ t => Moved r t)
  reads : ∀ r : Cursor, r.InBounds → LocalAt op r

theorem Bounded.forward {size : Cursor → ℕ} {P : Cursor → α → Prop}
    (h : Bounded parse size P) : Forward parse := by
  intro r hr
  apply (h.ends r hr).mono
  · rintro a t ⟨rfl, hin, -⟩
    exact ⟨_, rfl, Nat.le_add_right _ _, hin⟩
  · exact fun _ t ht => ht

theorem bounded_of_took {op : Parser α} {size : Cursor → ℕ} {P : Cursor → α → Prop}
    (hends : ∀ r : Cursor, r.InBounds →
      Ends op r (fun a t => ∃ b, Took r (size r) b t ∧ P r a) (fun _ t => t = r))
    (hreads : ∀ r : Cursor, r.InBounds → LocalAt op r) : Bounded op size P where
  ends r h := by
    apply (stays_moved h (hends r h)).mono
    · rintro a t ⟨b, hb, hP⟩
      exact ⟨hb.after, hb.moved.inBounds, hP⟩
    · exact fun _ t ht => ht
  reads := hreads

/-- The bytes from `k` places behind the cursor on. -/
def bytesAt (r : Cursor) (k n : ℕ) : List UInt8 := r.buf.extract (r.pos + k) (r.pos + k + n)

theorem bounded_readBytes (n : ℕ) :
    Bounded (readBytes n) (fun _ => n) (fun r b => b = r.bytesAt 0 n) :=
  bounded_of_took (fun _ h => (readBytes_ends h n).mono (fun b _ hb => ⟨b, hb, hb.bytes⟩)
    (fun _ _ ht => ht)) (fun _ h => localAt_readBytes h n)

theorem bounded_takeBody (len : ℕ) :
    Bounded (takeBody len) (fun _ => len) (fun r b => b = r.bytesAt 0 len) :=
  bounded_of_took (fun _ h => (takeBody_ends h len).mono (fun b _ hb => ⟨b, hb, hb.bytes⟩)
    (fun _ _ ht => ht)) (fun _ h => localAt_takeBody h len)

/-- Reading a value that is computed from the next `n` bytes. -/
theorem bounded_readValue (f : Bytes n → α) :
    Bounded (readArray n >>= fun b => pure (f b)) (fun _ => n)
      (fun r v => ∃ b : Bytes n, b.toList = r.bytesAt 0 n ∧ v = f b) :=
  bounded_of_took (fun _ h => (readValue_ends h f).mono
    (fun _ _ ⟨b, hb, hv⟩ => ⟨b.toList, hb, b, hb.bytes, hv⟩) (fun _ _ ht => ht))
    (fun _ h => localAt_readValue h f)

theorem bounded_readOpaque {readLen : Parser ℕ} (hlen : IsPrefix w readLen)
    (hread : ∀ r : Cursor, r.InBounds → LocalAt readLen r) :
    Bounded (readOpaque readLen) (fun r => w + declared w r)
      (fun r b => b = r.bytesAt w (declared w r)) where
  ends r h := by
    apply (readOpaque_ends hlen h).mono
    · intro b t hb
      refine ⟨?_, hb.moved.inBounds, hb.bytes⟩
      rw [hb.after, ← Nat.add_assoc]
      rfl
    · exact fun _ t ht => ht
  reads r h := localAt_prefixed hlen (hread r h) h (fun _ n ht => localAt_takeBody ht n)

theorem bounded_readScoped {body : Parser α} (hbody : Forward body) (len : ℕ) :
    Bounded (readScoped len body) (fun _ => len) (fun r _ => r.depth < r.maxDepth) where
  ends r h := by
    apply (readScoped_ends hbody h len).mono
    · rintro a t ⟨hdepth, hle, rfl⟩
      exact ⟨rfl, hle, hdepth⟩
    · exact fun _ t ht => ht
  reads r h := localAt_readScoped h len body

theorem bounded_readVector {readLen : Parser ℕ} (hlen : IsPrefix w readLen)
    (hread : ∀ r : Cursor, r.InBounds → LocalAt readLen r) (hparse : Forward parse) :
    Bounded (readVector readLen parse) (fun r => w + declared w r)
      (fun r _ => r.depth < r.maxDepth) where
  ends r h := by
    apply (readVector_ends hlen hparse h).mono
    · rintro a t ⟨hdepth, hle, rfl⟩
      rw [Nat.add_assoc] at hle ⊢
      exact ⟨rfl, hle, hdepth⟩
    · exact fun _ t ht => ht
  reads r h := localAt_prefixed hlen (hread r h) h (fun _ n ht => localAt_readScoped ht n _)

/-- Reading a big-endian number of `n` bytes. -/
theorem bounded_readNumber (f : Bytes n → α) (toNat : α → ℕ)
    (hf : ∀ b : Bytes n, toNat (f b) = BigEndian.decode b.toList) :
    Bounded (readArray n >>= fun b => pure (f b)) (fun _ => n)
      (fun r v => toNat v = declared n r) where
  ends r h := by
    apply ((bounded_readValue f).ends r h).mono
    · rintro v t ⟨ht, hin, b, hb, rfl⟩
      refine ⟨ht, hin, ?_⟩
      rw [hf, hb]
      rfl
    · exact fun _ t ht => ht
  reads := (bounded_readValue f).reads

theorem bounded_readU8 : Bounded readU8 (fun _ => 1) (fun r v => v.toNat = declared 1 r) :=
  bounded_readNumber (fun b => b.head) UInt8.toNat toNat_head

theorem bounded_readU16 : Bounded readU16 (fun _ => 2) (fun r v => v.toNat = declared 2 r) :=
  bounded_readNumber (fun b => UInt16.ofNat (BigEndian.decode b.toList)) UInt16.toNat toNat_u16

theorem bounded_readU24 : Bounded readU24 (fun _ => 3) (fun r v => v.get.toNat = declared 3 r) :=
  bounded_readNumber (fun b => U24.fromLow24 (UInt32.ofNat (BigEndian.decode b.toList)))
    (fun v => v.get.toNat) toNat_u24

theorem bounded_readU32 : Bounded readU32 (fun _ => 4) (fun r v => v.toNat = declared 4 r) :=
  bounded_readNumber (fun b => UInt32.ofNat (BigEndian.decode b.toList)) UInt32.toNat
    (fun b => UInt32.toNat_ofNat_of_lt' (decode_toList_lt b))

theorem bounded_readArray (n : ℕ) :
    Bounded (readArray n) (fun _ => n) (fun r a => a.toList = r.bytesAt 0 n) :=
  bounded_of_took (fun _ h => (readArray_ends h n).mono (fun a _ ha => ⟨a.toList, ha, ha.bytes⟩)
    (fun _ _ ht => ht)) (fun _ h => localAt_readArray h n)

theorem takeBody_of_lt (h : r.InBounds) (hlen : r.buf.length - r.pos < len) :
    takeBody len r = some (.error (.lengthOverflow (r.baseOffset + r.pos) len
      (r.buf.length - r.pos)), r) := by
  rw [takeBody, remaining_bind h, if_pos hlen]
  rfl

theorem readItems_of_lt (h : r.InBounds) (hdepth : r.depth < r.maxDepth)
    (hlen : r.buf.length - r.pos < len) :
    readItems parse len r = some (.error (.lengthOverflow (r.baseOffset + r.pos) len
      (r.buf.length - r.pos)), r) := by
  rw [readItems, readScoped_of_not_le (Nat.not_le.mpr hdepth),
    bind_of_error (takeBody_of_lt h hlen)]

/-- Every operation of the reader keeps the cursor within its bytes and takes exactly the bytes of
what it returns. With an element parser that only moves the cursor forward the loop over the
items ends; the parser runs only on cursors over the body and within the depth limit; a round
that consumes nothing, a length past the end and a level too deep are errors. -/
theorem reader_bounded :
    ((∀ n, Bounded (readBytes n) (fun _ => n) (fun r b => b = r.bytesAt 0 n)) ∧
      (∀ n, Bounded (readArray n) (fun _ => n) (fun r a => a.toList = r.bytesAt 0 n)) ∧
      Bounded readU8 (fun _ => 1) (fun r v => v.toNat = declared 1 r) ∧
      Bounded readU16 (fun _ => 2) (fun r v => v.toNat = declared 2 r) ∧
      Bounded readU24 (fun _ => 3) (fun r v => v.get.toNat = declared 3 r) ∧
      Bounded readU32 (fun _ => 4) (fun r v => v.toNat = declared 4 r) ∧
      ∀ len, Bounded (takeBody len) (fun _ => len) (fun r b => b = r.bytesAt 0 len)) ∧
    (Bounded readOpaqueU8 (fun r => 1 + declared 1 r) (fun r b => b = r.bytesAt 1 (declared 1 r)) ∧
      Bounded readOpaqueU16 (fun r => 2 + declared 2 r)
        (fun r b => b = r.bytesAt 2 (declared 2 r)) ∧
      Bounded readOpaqueU24 (fun r => 3 + declared 3 r)
        (fun r b => b = r.bytesAt 3 (declared 3 r))) ∧
    ∀ (α : Type) (parse : Parser α), Forward parse →
      (∀ len, Bounded (readScoped len parse) (fun _ => len) (fun r _ => r.depth < r.maxDepth)) ∧
      (∀ len, Bounded (readItems parse len) (fun _ => len) (fun r _ => r.depth < r.maxDepth)) ∧
      (Bounded (readVectorU8 parse) (fun r => 1 + declared 1 r) (fun r _ => r.depth < r.maxDepth) ∧
        Bounded (readVectorU16 parse) (fun r => 2 + declared 2 r)
          (fun r _ => r.depth < r.maxDepth) ∧
        Bounded (readVectorU24 parse) (fun r => 3 + declared 3 r)
          (fun r _ => r.depth < r.maxDepth)) ∧
      ∀ r : Cursor, r.InBounds →
        (∀ fuel items, r.buf.length - r.pos < fuel →
          Ends (readItemsLoop parse fuel items) r (fun _ t => Moved r t ∧ t.pos = r.buf.length)
            (fun _ t => Moved r t)) ∧
        (∀ fuel items a t, r.pos < r.buf.length → parse r = some (.ok a, t) → t.pos = r.pos →
          readItemsLoop parse (fuel + 1) items r =
            some (.error (.zeroWidthElement (t.baseOffset + t.pos)), t)) ∧
        ∀ len,
          (∀ parse' : Parser α,
            (∀ c, r.pos + len ≤ r.buf.length → c.buf = r.bytesAt 0 len → c.pos ≤ len →
              c.depth = r.depth + 1 → c.depth ≤ c.maxDepth → parse c = parse' c) →
            readItems parse len r = readItems parse' len r) ∧
          (r.depth < r.maxDepth → r.buf.length - r.pos < len →
            readItems parse len r = some (.error (.lengthOverflow (r.baseOffset + r.pos) len
              (r.buf.length - r.pos)), r)) ∧
          (r.maxDepth ≤ r.depth →
            readItems parse len r =
              some (.error (.depthLimitExceeded (r.baseOffset + r.pos) r.maxDepth), r)) := by
  refine ⟨⟨bounded_readBytes, bounded_readArray, bounded_readU8, bounded_readU16, bounded_readU24,
    bounded_readU32, bounded_takeBody⟩, ⟨?_, ?_, ?_⟩, ?_⟩
  · exact bounded_readOpaque isPrefix_readLenU8 (fun _ h => localAt_readLenU8 h)
  · exact bounded_readOpaque isPrefix_readLenU16 (fun _ h => localAt_readLenU16 h)
  · exact bounded_readOpaque isPrefix_readLenU24 (fun _ h => localAt_readLenU24 h)
  · intro α parse hparse
    refine ⟨bounded_readScoped hparse, bounded_readScoped (forward_readItemsLoop hparse),
      ⟨?_, ?_, ?_⟩, ?_⟩
    · exact bounded_readVector isPrefix_readLenU8 (fun _ h => localAt_readLenU8 h) hparse
    · exact bounded_readVector isPrefix_readLenU16 (fun _ h => localAt_readLenU16 h) hparse
    · exact bounded_readVector isPrefix_readLenU24 (fun _ h => localAt_readLenU24 h) hparse
    · intro r h
      refine ⟨fun fuel items hfuel => readItemsLoop_ends hparse h hfuel items,
        fun fuel items a t hne ha hpos => readItemsLoop_zeroWidth h hne ha hpos, ?_⟩
      intro len
      refine ⟨?_, fun hdepth hlen => readItems_of_lt h hdepth hlen, readScoped_of_le⟩
      intro parse' hcongr
      apply readItems_congr hparse h
      intro c hle hdepth hc
      obtain ⟨hbuf, hpos, -, hlevel, hmax⟩ := window_of_moved hle hdepth hc
      exact hcongr c hle hbuf hpos hlevel hmax

/-- A vector of vectors of 16-bit numbers. -/
theorem reader_bounded_nested :
    Bounded (readVectorU16 (readVectorU8 readU16)) (fun r => 2 + declared 2 r)
      (fun r _ => r.depth < r.maxDepth) := by
  have hinner := (reader_bounded.2.2 UInt16 readU16 bounded_readU16.forward).2.2.1.1
  exact (reader_bounded.2.2 (List UInt16) (readVectorU8 readU16) hinner.forward).2.2.1.2.1

end Cursor

end Mtc
