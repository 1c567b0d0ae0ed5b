import MtcCa.Wire.Bounded

/-! The reader that is bounded by its type does what the mutable cursor does
(`crates/mtc/src/wire/reader.rs`). -/
namespace Mtc

open Mutating

variable {α β : Type}

/-- The cursor of a reader. -/
def TlsReader.toCursor (r : TlsReader) : Cursor :=
  ⟨r.buf, r.pos, r.baseOffset, r.depth, r.maxDepth⟩

theorem TlsReader.inBounds_toCursor (r : TlsReader) : r.toCursor.InBounds := r.pos_le

/-- The test of a scoped reader that its body was read to the end. -/
def TlsReader.consumed (p : α × TlsReader) : Except WireError (α × TlsReader) :=
  if ¬ p.2.isEmpty then .error (.trailingBytes p.2.offset p.2.remaining) else .ok p

theorem TlsReader.readScoped_of_not_le {r : TlsReader} (h : ¬ r.maxDepth ≤ r.depth) (len : ℕ)
    (body : TlsReader → Except WireError (α × TlsReader)) :
    r.readScoped len body = r.takeBody len >>= fun p =>
      (body (r.scope p.1) >>= consumed) >>= fun q => .ok (q.1, p.2) := by
  rw [TlsReader.readScoped, if_neg h]
  apply congrArg
  funext p
  obtain ⟨b, r'⟩ := p
  change (body (r.scope b) >>= _) = ((body (r.scope b) >>= consumed) >>= _)
  rcases body (r.scope b) with e | ⟨a, sub⟩
  · rfl
  · change (if ¬ sub.isEmpty then _ else _ : Except WireError (α × TlsReader)) =
      ((if ¬ sub.isEmpty then _ else _ : Except WireError (α × TlsReader)) >>= _)
    split <;> rfl

theorem TlsReader.remaining_toCursor (r : TlsReader) :
    r.toCursor.buf.length - r.toCursor.pos = r.remaining := rfl

namespace Cursor

/-- The same value with the same cursor over `buf` after it, or the same error. -/
def Agree (buf : List UInt8) (x : Except WireError (α × TlsReader))
    (y : Option (Except WireError α × Cursor)) : Prop :=
  (∃ a r, x = .ok (a, r) ∧ r.buf = buf ∧ y = some (.ok a, r.toCursor)) ∨
    ∃ e t, x = .error e ∧ y = some (.error e, t)

/-- The parser on cursors does what the function on readers does. A slice is shorter than
`2 ^ 64` bytes. -/
def Refines (op : Parser α) (read : TlsReader → Except WireError (α × TlsReader)) : Prop :=
  ∀ r : TlsReader, r.buf.length < 2 ^ 64 → Agree r.buf (read r) (op r.toCursor)

variable {op : Parser α} {read : TlsReader → Except WireError (α × TlsReader)}

theorem Refines.bind {next : α → Parser β}
    {readNext : α × TlsReader → Except WireError (β × TlsReader)} (h : Refines op read)
    (hnext : ∀ a, Refines (next a) (fun r => readNext (a, r))) :
    Refines (op >>= next) (fun r => read r >>= readNext) := by
  intro r hr
  rcases h r hr with ⟨a, r₁, hread, hbuf, hop⟩ | ⟨e, t, hread, hop⟩
  · have hseq : (read r >>= readNext) = readNext (a, r₁) := by
      rw [hread]
      rfl
    have hr₁ : r₁.buf.length < 2 ^ 64 := by rwa [hbuf]
    rw [bind_of_ok hop]
    rcases hnext a r₁ hr₁ with ⟨b, r₂, hread', hbuf', hop'⟩ | ⟨e, t, hread', hop'⟩
    · exact Or.inl ⟨b, r₂, hseq.trans hread', hbuf'.trans hbuf, hop'⟩
    · exact Or.inr ⟨e, t, hseq.trans hread', hop'⟩
  · refine Or.inr ⟨e, t, ?_, bind_of_error hop⟩
    change (read r >>= readNext) = .error e
    rw [hread]
    rfl

theorem Refines.map (h : Refines op read) (f : α → β) :
    Refines (op >>= fun a => pure (f a)) (fun r => do
      let (a, r) ← read r
      .ok (f a, r)) := by
  apply h.bind
  intro a r _
  exact Or.inl ⟨f a, r, rfl, rfl, rfl⟩

theorem refines_readBytes (n : ℕ) : Refines (readBytes n) (fun r => r.readBytes n) := by
  intro r hr
  by_cases hn : r.pos + n ≤ r.buf.length
  · exact Or.inl ⟨_, _, dif_pos hn, rfl,
      readBytes_of_le (r := r.toCursor) hn (lt_of_le_of_lt hn hr)⟩
  · exact Or.inr ⟨_, _, dif_neg hn, readBytes_of_not_le r.inBounds_toCursor (fun h => hn h.1)⟩

theorem TlsReader.readArray_of_ok {r r' : TlsReader} {n : ℕ} {b : List UInt8}
    (h : r.readBytes n = .ok (b, r')) :
    r.readArray n = .ok (⟨b, TlsReader.length_of_readBytes h⟩, r') := by
  unfold TlsReader.readArray
  split
  · next e he =>
    rw [h] at he
    cases he
  · next hb =>
    rw [h] at hb
    cases hb
    rfl

theorem TlsReader.readArray_of_error {r : TlsReader} {n : ℕ} {e : WireError}
    (h : r.readBytes n = .error e) : r.readArray n = .error e := by
  unfold TlsReader.readArray
  split
  · next e he =>
    rw [h] at he
    cases he
    rfl
  · next hb =>
    rw [h] at hb
    cases hb

theorem refines_readArray (n : ℕ) : Refines (readArray n) (fun r => r.readArray n) := by
  intro r hr
  rcases refines_readBytes n r hr with ⟨b, r', hread, hbuf, hop⟩ | ⟨e, t, hread, hop⟩
  · refine Or.inl ⟨_, r', TlsReader.readArray_of_ok hread, hbuf, ?_⟩
    rw [readArray, bind_of_ok hop, dif_pos (TlsReader.length_of_readBytes hread)]
    rfl
  · exact Or.inr ⟨e, t, TlsReader.readArray_of_error hread, bind_of_error hop⟩

theorem refines_readU8 : Refines readU8 TlsReader.readU8 :=
  (refines_readArray 1).map (fun b => b.head)

theorem refines_readU16 : Refines readU16 TlsReader.readU16 :=
  (refines_readArray 2).map (fun b => UInt16.ofNat (BigEndian.decode b.toList))

theorem refines_readU24 : Refines readU24 TlsReader.readU24 :=
  (refines_readArray 3).map (fun b => U24.fromLow24 (UInt32.ofNat (BigEndian.decode b.toList)))

theorem refines_readU32 : Refines readU32 TlsReader.readU32 :=
  (refines_readArray 4).map (fun b => UInt32.ofNat (BigEndian.decode b.toList))

theorem refines_takeBody (len : ℕ) : Refines (takeBody len) (fun r => r.takeBody len) := by
  intro r hr
  rw [takeBody, remaining_bind r.inBounds_toCursor, r.remaining_toCursor]
  by_cases hlen : r.remaining < len
  · refine Or.inr ⟨.lengthOverflow r.offset len r.remaining, r.toCursor, if_pos hlen, ?_⟩
    rw [if_pos hlen]
    rfl
  · have htake : r.takeBody len = r.readBytes len := if_neg hlen
    rw [if_neg hlen]
    simp only [htake]
    exact refines_readBytes len r hr

theorem refines_readLenU8 : Refines readLenU8 TlsReader.readLenU8 :=
  refines_readU8.map UInt8.toNat

theorem refines_readLenU16 : Refines readLenU16 TlsReader.readLenU16 :=
  refines_readU16.map UInt16.toNat

theorem refines_readLenU24 : Refines readLenU24 TlsReader.readLenU24 :=
  refines_readU24.map (fun len => len.get.toNat)

theorem refines_readOpaque {len : Parser ℕ}
    {readLen : TlsReader → Except WireError (ℕ × TlsReader)} (h : Refines len readLen) :
    Refines (readOpaque len) (fun r => r.readOpaque readLen) :=
  h.bind refines_takeBody

theorem refines_consumed (value : α) :
    Refines (consumed value) (fun r => TlsReader.consumed (value, r)) := by
  intro r _
  rw [consumed, isEmpty_bind r.inBounds_toCursor, r.remaining_toCursor]
  by_cases hempty : r.remaining = 0
  · have hreader : r.isEmpty = true := decide_eq_true hempty
    refine Or.inl ⟨value, r, if_neg (fun h => h hreader), rfl, ?_⟩
    rw [hempty]
    rfl
  · have hreader : ¬ r.isEmpty = true := fun h => hempty (of_decide_eq_true h)
    refine Or.inr ⟨.trailingBytes r.offset r.remaining, r.toCursor, if_pos hreader, ?_⟩
    simp only [hempty, decide_false, Bool.not_false, if_true, offset_bind,
      remaining_bind r.inBounds_toCursor]
    rfl

theorem refines_readScoped {body : Parser α}
    {readBody : TlsReader → Except WireError (α × TlsReader)} (h : Refines body readBody)
    (len : ℕ) : Refines (readScoped len body) (fun r => r.readScoped len readBody) := by
  intro r hr
  by_cases hdepth : r.maxDepth ≤ r.depth
  · exact Or.inr ⟨_, _, if_pos hdepth, readScoped_of_le (r := r.toCursor) hdepth⟩
  · rw [readScoped_of_not_le (r := r.toCursor) hdepth]
    simp only [TlsReader.readScoped_of_not_le hdepth]
    rcases refines_takeBody len r hr with ⟨b, r', htake, hbuf, hop⟩ | ⟨e, t, htake, hop⟩
    · change r.takeBody len = _ at htake
      have hlen : b.length < 2 ^ 64 := by
        have htook := (takeBody_ends r.inBounds_toCursor len).of_ok hop
        have hle : r.pos + len ≤ r.buf.length := htook.le_length
        rw [htook.length_eq]
        omega
      rw [bind_of_ok hop]
      rcases h.bind refines_consumed (r.scope b) hlen with
        ⟨a, sub, hsub, -, hop'⟩ | ⟨e, t, hsub, hop'⟩
      · change (readBody (r.scope b) >>= TlsReader.consumed) = _ at hsub
        refine Or.inl ⟨a, r', ?_, hbuf, on_of_ok hop'⟩
        rw [htake]
        change ((readBody (r.scope b) >>= TlsReader.consumed) >>= _) = _
        rw [hsub]
        rfl
      · change (readBody (r.scope b) >>= TlsReader.consumed) = _ at hsub
        refine Or.inr ⟨e, r'.toCursor, ?_, on_of_error hop'⟩
        rw [htake]
        change ((readBody (r.scope b) >>= TlsReader.consumed) >>= _) = _
        rw [hsub]
        rfl
    · change r.takeBody len = _ at htake
      refine Or.inr ⟨e, t, ?_, bind_of_error hop⟩
      rw [htake]
      rfl

/-- The loop on readers stops with its fuel where the loop on cursors tests once more. -/
theorem refines_readItemsLoop {parse : Parser α}
    {readItem : TlsReader → Except WireError (α × TlsReader)} (h : Refines parse readItem)
    (hforward : Forward parse) {fuel : ℕ} {r : TlsReader} (hr : r.buf.length < 2 ^ 64)
    (hfuel : r.remaining ≤ fuel) (items : List α) :
    Agree r.buf (TlsReader.readItemsLoop readItem fuel r items)
      (readItemsLoop parse (fuel + 1) items r.toCursor) := by
  induction fuel generalizing r items with
  | zero =>
    have hremaining : r.remaining = 0 := Nat.le_zero.mp hfuel
    refine Or.inl ⟨items, r, rfl, rfl, ?_⟩
    rw [readItemsLoop_succ parse r.inBounds_toCursor, r.remaining_toCursor, if_pos hremaining]
  | succ fuel ih =>
    rw [readItemsLoop_succ parse r.inBounds_toCursor, r.remaining_toCursor]
    by_cases hempty : r.remaining = 0
    · refine Or.inl ⟨items, r, if_pos (decide_eq_true hempty), rfl, ?_⟩
      rw [if_pos hempty]
    · have hreader : ¬ r.isEmpty = true := fun hr => hempty (of_decide_eq_true hr)
      rw [if_neg hempty, TlsReader.readItemsLoop, if_neg hreader]
      rcases h r hr with ⟨item, r₁, hread, hbuf, hop⟩ | ⟨e, t, hread, hop⟩
      · rw [hread, bind_of_ok hop, position_bind]
        have hpos : r.pos ≤ r₁.pos :=
          ((hforward r.toCursor r.inBounds_toCursor).of_ok hop).pos_le
        have hle := r₁.pos_le
        by_cases hmoved : r₁.pos = r.pos
        · have hcursor : r₁.toCursor.pos = r.toCursor.pos := hmoved
          refine Or.inr ⟨.zeroWidthElement r₁.offset, r₁.toCursor, if_pos hmoved, ?_⟩
          rw [if_pos hcursor]
          rfl
        · have hcursor : ¬ r₁.toCursor.pos = r.toCursor.pos := hmoved
          have hloop := ih (r := r₁) (by rwa [hbuf]) (by
            rw [TlsReader.remaining] at hfuel ⊢
            rw [hbuf] at hle ⊢
            omega) (items ++ [item])
          rw [hbuf] at hloop
          rw [if_neg hcursor]
          change Agree _ (if r₁.pos = r.pos then _ else _) _
          rw [if_neg hmoved]
          exact hloop
      · refine Or.inr ⟨e, t, ?_, bind_of_error hop⟩
        rw [hread]
        rfl

theorem refines_readVector [TlsParse α] {parse : Parser α} (h : Refines parse tlsParse)
    (hforward : Forward parse) {len : Parser ℕ}
    {readLen : TlsReader → Except WireError (ℕ × TlsReader)} (hlen : Refines len readLen) :
    Refines (readVector len parse) (fun r => r.readVector readLen) := by
  apply hlen.bind
  intro n
  apply refines_readScoped
  intro r hr
  rw [remaining_bind r.inBounds_toCursor]
  exact refines_readItemsLoop h hforward hr le_rfl []

/-- The strings and the vectors of the wire format are read alike from both. -/
theorem refines_readOpaques :
    Refines readOpaqueU8 TlsReader.readOpaqueU8 ∧ Refines readOpaqueU16 TlsReader.readOpaqueU16 ∧
      Refines readOpaqueU24 TlsReader.readOpaqueU24 :=
  ⟨refines_readOpaque refines_readLenU8, refines_readOpaque refines_readLenU16,
    refines_readOpaque refines_readLenU24⟩

theorem refines_readVectors [TlsParse α] {parse : Parser α} (h : Refines parse tlsParse)
    (hforward : Forward parse) :
    Refines (readVectorU8 parse) (fun r => r.readVectorU8) ∧
      Refines (readVectorU16 parse) (fun r => r.readVectorU16) ∧
      Refines (readVectorU24 parse) (fun r => r.readVectorU24) :=
  ⟨refines_readVector h hforward refines_readLenU8,
    refines_readVector h hforward refines_readLenU16,
    refines_readVector h hforward refines_readLenU24⟩

end Cursor

end Mtc
