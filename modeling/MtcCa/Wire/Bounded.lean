import MtcCa.Lib.Slices
import MtcCa.Wire.Codec
import MtcCa.Wire.Cursor

/-! The cursor stays within its bytes: every operation ends, leaves the position between where
it was and the end, and takes exactly the bytes of what it returns
(`crates/mtc/src/wire/reader.rs`). -/
namespace Mtc

open Mutating

namespace Cursor

variable {α β : Type} {r t u : Cursor} {n w fuel : ℕ}

/-- The position has not passed the end. -/
def InBounds (r : Cursor) : Prop := r.pos ≤ r.buf.length

/-- The cursor moved forward, and nothing else about it changed. -/
def Moved (r t : Cursor) : Prop := ∃ pos, t = r.moveTo pos ∧ r.pos ≤ pos ∧ pos ≤ r.buf.length

theorem Moved.refl (h : r.InBounds) : Moved r r := ⟨r.pos, rfl, le_rfl, h⟩

theorem Moved.trans (h : Moved r t) (h' : Moved t u) : Moved r u := by
  obtain ⟨p, rfl, hp, hplen⟩ := h
  obtain ⟨q, rfl, hq, hqlen⟩ := h'
  exact ⟨q, rfl, hp.trans hq, hqlen⟩

theorem Moved.inBounds (h : Moved r t) : t.InBounds := by
  obtain ⟨p, rfl, -, hp⟩ := h
  exact hp

theorem Moved.buf_eq (h : Moved r t) : t.buf = r.buf := by
  obtain ⟨p, rfl, -⟩ := h
  rfl

theorem Moved.pos_le (h : Moved r t) : r.pos ≤ t.pos := by
  obtain ⟨p, rfl, hp, -⟩ := h
  exact hp

/-- The next `n` bytes of `r` are `b`, and `t` is the cursor after them. -/
structure Took (r : Cursor) (n : ℕ) (b : List UInt8) (t : Cursor) : Prop where
  le_length : r.pos + n ≤ r.buf.length
  bytes : b = r.buf.extract r.pos (r.pos + n)
  after : t = r.moveTo (r.pos + n)

theorem Took.moved {b : List UInt8} (h : Took r n b t) : Moved r t :=
  ⟨r.pos + n, h.after, Nat.le_add_right _ _, h.le_length⟩

theorem Took.length_eq {b : List UInt8} (h : Took r n b t) : b.length = n := by
  rw [h.bytes, Slices.length_extract h.le_length]
  omega

/-! ### What an operation sees of the cursor -/

theorem remaining_apply (h : r.InBounds) :
    remaining r = some (.ok (r.buf.length - r.pos), r) := by
  rw [remaining, get_bind, Checked.sub_eq h]
  rfl

theorem remaining_bind (h : r.InBounds) (f : ℕ → Parser β) :
    (remaining >>= f) r = f (r.buf.length - r.pos) r := bind_of_ok (remaining_apply h)

theorem isEmpty_bind (h : r.InBounds) (f : Bool → Parser β) :
    (isEmpty >>= f) r = f (r.buf.length - r.pos = 0) r := by
  apply bind_of_ok
  rw [isEmpty, remaining_bind h]
  rfl

theorem offset_bind (f : ℕ → Parser β) : (offset >>= f) r = f (r.baseOffset + r.pos) r := rfl

theorem position_bind (f : ℕ → Parser β) : (position >>= f) r = f r.pos r := rfl

theorem unexpectedEof_apply (h : r.InBounds) :
    (unexpectedEof n : Parser α) r =
      some (.error (.unexpectedEof (r.baseOffset + r.pos) n (r.buf.length - r.pos)), r) := by
  rw [unexpectedEof, offset_bind, remaining_bind h]
  rfl

theorem readBytes_of_le (hn : r.pos + n ≤ r.buf.length) (hw : r.pos + n < 2 ^ 64) :
    readBytes n r = some (.ok (r.buf.extract r.pos (r.pos + n)), r.moveTo (r.pos + n)) := by
  have hslice : slice r.buf r.pos (r.pos + n) = some (r.buf.extract r.pos (r.pos + n)) :=
    if_pos ⟨Nat.le_add_right _ _, hn⟩
  rw [readBytes, get_bind]
  simp only [Checked.add_eq hw, hn, hslice, decide_true, Bool.not_true, Bool.false_eq_true,
    if_false]
  rfl

theorem readBytes_of_not_le (h : r.InBounds) (hn : ¬ (r.pos + n ≤ r.buf.length ∧
    r.pos + n < 2 ^ 64)) :
    readBytes n r =
      some (.error (.unexpectedEof (r.baseOffset + r.pos) n (r.buf.length - r.pos)), r) := by
  rw [readBytes, get_bind]
  by_cases hw : r.pos + n < 2 ^ 64
  · have hlen : ¬ r.pos + n ≤ r.buf.length := fun hle => hn ⟨hle, hw⟩
    simp only [Checked.add_eq hw, hlen, decide_false, Bool.not_false, if_true,
      unexpectedEof_apply h]
  · have hadd : Checked.add 64 r.pos n = none := if_neg hw
    simp only [hadd, Bool.not_false, if_true, unexpectedEof_apply h]

/-! ### Every operation ends within its bytes -/

theorem readBytes_ends (h : r.InBounds) (n : ℕ) :
    Ends (readBytes n) r (Took r n) (fun _ t => t = r) := by
  by_cases hn : r.pos + n ≤ r.buf.length ∧ r.pos + n < 2 ^ 64
  · exact Or.inl ⟨_, _, readBytes_of_le hn.1 hn.2, hn.1, rfl, rfl⟩
  · exact Or.inr ⟨_, _, readBytes_of_not_le h hn, rfl⟩

theorem readArray_ends (h : r.InBounds) (n : ℕ) :
    Ends (readArray n) r (fun a t => Took r n a.toList t) (fun _ t => t = r) := by
  apply (readBytes_ends h n).bind
  intro b t hb
  rw [dif_pos hb.length_eq]
  exact Ends.pure hb

/-- A value that is computed from the bytes of an array. -/
theorem readValue_ends (h : r.InBounds) (f : Bytes n → β) :
    Ends (readArray n >>= fun b => pure (f b)) r
      (fun v t => ∃ b : Bytes n, Took r n b.toList t ∧ v = f b) (fun _ t => t = r) := by
  apply (readArray_ends h n).bind
  intro b t hb
  exact Ends.pure ⟨b, hb, rfl⟩

theorem takeBody_ends (h : r.InBounds) (len : ℕ) :
    Ends (takeBody len) r (Took r len) (fun _ t => t = r) := by
  rw [takeBody, Ends, remaining_bind h]
  split
  · exact Or.inr ⟨_, _, rfl, rfl⟩
  · exact readBytes_ends h len

/-- A length prefix of `w` bytes: the number that they are in big-endian. -/
def IsPrefix (w : ℕ) (readLen : Parser ℕ) : Prop :=
  ∀ r : Cursor, r.InBounds →
    Ends readLen r (fun len t => ∃ b, Took r w b t ∧ len = BigEndian.decode b) (fun _ t => t = r)

theorem decode_toList_lt (b : Bytes n) : BigEndian.decode b.toList < 256 ^ n := by
  have hlt := BigEndian.decode_lt b.toList
  rwa [b.toList_length] at hlt

theorem toNat_head (b : Bytes 1) : b.head.toNat = BigEndian.decode b.toList := by
  obtain ⟨l, hl⟩ := b
  obtain ⟨x, rfl⟩ := List.length_eq_one_iff.mp hl
  change x.toNat = 256 * 0 + x.toNat
  omega

theorem toNat_u16 (b : Bytes 2) :
    (UInt16.ofNat (BigEndian.decode b.toList)).toNat = BigEndian.decode b.toList :=
  UInt16.toNat_ofNat_of_lt' (decode_toList_lt b)

theorem toNat_u24 (b : Bytes 3) :
    (U24.fromLow24 (UInt32.ofNat (BigEndian.decode b.toList))).get.toNat =
      BigEndian.decode b.toList :=
  TlsReader.toNat_fromLow24 (decode_toList_lt b)

theorem isPrefix_readNumber {f : Bytes n → β} {toNat : β → ℕ}
    (hf : ∀ b, toNat (f b) = BigEndian.decode b.toList) :
    IsPrefix n ((readArray n >>= fun b => pure (f b)) >>= fun v => pure (toNat v)) := by
  intro r h
  apply (readValue_ends h f).bind
  rintro v t ⟨b, hb, rfl⟩
  exact Ends.pure ⟨b.toList, hb, hf b⟩

theorem isPrefix_readLenU8 : IsPrefix 1 readLenU8 := isPrefix_readNumber toNat_head

theorem isPrefix_readLenU16 : IsPrefix 2 readLenU16 := isPrefix_readNumber toNat_u16

theorem isPrefix_readLenU24 : IsPrefix 3 readLenU24 :=
  isPrefix_readNumber toNat_u24

/-- An operation that leaves the cursor in place where it fails. -/
theorem stays_moved {m : Parser α} {P : α → Cursor → Prop} (h : r.InBounds)
    (hm : Ends m r P (fun _ t => t = r)) : Ends m r P (fun _ t => Moved r t) := by
  apply hm.mono_error
  rintro e t rfl
  exact Moved.refl h

/-- The length that the next `w` bytes announce. -/
def declared (w : ℕ) (r : Cursor) : ℕ := BigEndian.decode (r.buf.extract r.pos (r.pos + w))

/-- What comes behind a length prefix starts where the prefix ends. -/
theorem IsPrefix.ends_bind {readLen : Parser ℕ} {P : β → Cursor → Prop} {f : ℕ → Parser β}
    (hlen : IsPrefix w readLen) (h : r.InBounds)
    (hf : r.pos + w ≤ r.buf.length →
      Ends (f (declared w r)) (r.moveTo (r.pos + w)) P
        (fun _ t => Moved (r.moveTo (r.pos + w)) t)) :
    Ends (readLen >>= f) r P (fun _ t => Moved r t) := by
  apply (stays_moved h (hlen r h)).bind
  rintro len t ⟨b, hb, rfl⟩
  have hrest := hf hb.le_length
  rw [declared, ← hb.bytes, ← hb.after] at hrest
  exact hrest.mono_error (fun _ _ ht => hb.moved.trans ht)

theorem readOpaque_ends {readLen : Parser ℕ} (hlen : IsPrefix w readLen) (h : r.InBounds) :
    Ends (readOpaque readLen) r
      (fun b t => Took (r.moveTo (r.pos + w)) (declared w r) b t) (fun _ t => Moved r t) := by
  apply hlen.ends_bind h
  intro hw
  have hin : (r.moveTo (r.pos + w)).InBounds := hw
  exact stays_moved hin (takeBody_ends hin (declared w r))

/-- A parser that from every cursor within its bytes ends with the cursor moved forward. -/
def Forward (parse : Parser α) : Prop :=
  ∀ r : Cursor, r.InBounds → Ends parse r (fun _ t => Moved r t) (fun _ t => Moved r t)

/-- The cursor over the next `len` bytes of `r`. -/
def scope (r : Cursor) (len : ℕ) : Cursor :=
  ⟨r.buf.extract r.pos (r.pos + len), 0, r.baseOffset + r.pos, r.depth + 1, r.maxDepth⟩

theorem scope_inBounds (r : Cursor) (len : ℕ) : (r.scope len).InBounds := Nat.zero_le _

theorem consumed_ends {value : α} (h : r.InBounds) :
    Ends (consumed value) r (fun a t => a = value ∧ t = r ∧ r.pos = r.buf.length)
      (fun _ t => t = r) := by
  rw [consumed, Ends, isEmpty_bind h]
  by_cases hempty : r.buf.length - r.pos = 0
  · have hpos : r.pos = r.buf.length := le_antisymm h (Nat.le_of_sub_eq_zero hempty)
    rw [hempty]
    exact Or.inl ⟨value, r, rfl, rfl, rfl, hpos⟩
  · refine Or.inr ⟨.trailingBytes (r.baseOffset + r.pos) (r.buf.length - r.pos), r, ?_, rfl⟩
    simp only [hempty, decide_false, Bool.not_false, if_true, offset_bind, remaining_bind h]
    rfl

theorem readScoped_of_le {body : Parser α} {len : ℕ} (h : r.maxDepth ≤ r.depth) :
    readScoped len body r =
      some (.error (.depthLimitExceeded (r.baseOffset + r.pos) r.maxDepth), r) := by
  rw [readScoped, get_bind, if_pos h]
  rfl

theorem readScoped_of_not_le {body : Parser α} {len : ℕ} (h : ¬ r.maxDepth ≤ r.depth) :
    readScoped len body r = (takeBody len >>= fun bodyBytes =>
      Op.on ⟨bodyBytes, 0, r.baseOffset + r.pos, r.depth + 1, r.maxDepth⟩
        (body >>= consumed)) r := by
  rw [readScoped, get_bind, if_neg h]

/-- A scoped parser takes the whole body, within the depth limit. -/
theorem readScoped_ends {body : Parser α} (hbody : Forward body) (h : r.InBounds) (len : ℕ) :
    Ends (readScoped len body) r
      (fun _ t => r.depth < r.maxDepth ∧ r.pos + len ≤ r.buf.length ∧ t = r.moveTo (r.pos + len))
      (fun _ t => Moved r t) := by
  by_cases hdepth : r.maxDepth ≤ r.depth
  · exact Or.inr ⟨_, _, readScoped_of_le hdepth, Moved.refl h⟩
  · rw [Ends, readScoped_of_not_le hdepth]
    apply (stays_moved h (takeBody_ends h len)).bind
    intro b t hb
    have hsub := hbody (r.scope len) (scope_inBounds r len)
    rw [scope, ← hb.bytes] at hsub
    have hall := hsub.bind (f := consumed) (Q := fun _ _ => True)
      (fun a t ht => (consumed_ends ht.inBounds).mono (fun _ _ _ => trivial)
        (fun _ u hu => by rw [hu]; exact ht))
    apply hall.on.mono
    · rintro a u ⟨rfl, -⟩
      exact ⟨Nat.lt_of_not_le hdepth, hb.le_length, hb.after⟩
    · rintro e u rfl
      exact hb.moved

/-! ### The loop over the items -/

theorem readItemsLoop_succ (parse : Parser α) (h : r.InBounds) (items : List α) :
    readItemsLoop parse (fuel + 1) items r =
      if r.buf.length - r.pos = 0 then some (.ok items, r)
      else (parse >>= fun item => position >>= fun after =>
        if after = r.pos then offset >>= fun o => Op.fail (.zeroWidthElement o)
        else readItemsLoop parse fuel (items ++ [item])) r := by
  rw [readItemsLoop, isEmpty_bind h]
  by_cases hempty : r.buf.length - r.pos = 0
  · rw [if_pos hempty, hempty]
    rfl
  · rw [if_neg hempty]
    simp only [hempty, decide_false, Bool.false_eq_true, if_false, position_bind]

/-- With a test for every byte left and one more the loop ends. A round that goes on has moved
the cursor. -/
theorem readItemsLoop_ends {parse : Parser α} (hparse : Forward parse) (h : r.InBounds)
    (hfuel : r.buf.length - r.pos < fuel) (items : List α) :
    Ends (readItemsLoop parse fuel items) r (fun _ t => Moved r t ∧ t.pos = r.buf.length)
      (fun _ t => Moved r t) := by
  induction fuel generalizing r items with
  | zero => omega
  | succ fuel ih =>
    rw [Ends, readItemsLoop_succ parse h]
    split
    · next hempty =>
      exact Or.inl ⟨items, r, rfl, Moved.refl h, le_antisymm h (Nat.le_of_sub_eq_zero hempty)⟩
    · apply (hparse r h).bind
      intro item t ht
      rw [Ends, position_bind]
      split
      · exact Or.inr ⟨_, _, rfl, ht⟩
      · next hmoved =>
        have hlt : r.pos < t.pos := lt_of_le_of_ne ht.pos_le (Ne.symm hmoved)
        have hle : t.pos ≤ t.buf.length := ht.inBounds
        rw [ht.buf_eq] at hle
        have hrest := ih ht.inBounds (by rw [ht.buf_eq]; omega) (items ++ [item])
        apply hrest.mono
        · rintro _ u ⟨hu, hend⟩
          exact ⟨ht.trans hu, hend.trans (congrArg List.length ht.buf_eq)⟩
        · exact fun _ u hu => ht.trans hu

/-- More tests than the loop needs change nothing. -/
theorem readItemsLoop_mono {parse : Parser α} {k : ℕ} {items : List α}
    {x : Except WireError (List α) × Cursor} (hk : fuel ≤ k)
    (hx : readItemsLoop parse fuel items r = some x) : readItemsLoop parse k items r = some x := by
  induction fuel generalizing r items k with
  | zero => cases hx
  | succ fuel ih =>
    obtain ⟨k, rfl⟩ := Nat.exists_eq_succ_of_ne_zero (Nat.ne_of_gt (Nat.lt_of_lt_of_le
      fuel.succ_pos hk))
    apply bind_mono hx
    intro empty r hx
    by_cases hempty : empty
    · rw [if_pos hempty] at hx ⊢
      exact hx
    · rw [if_neg hempty] at hx ⊢
      apply bind_mono hx
      intro before r hx
      apply bind_mono hx
      intro item r hx
      apply bind_mono hx
      intro after r hx
      by_cases hafter : after = before
      · rw [if_pos hafter] at hx ⊢
        exact hx
      · rw [if_neg hafter] at hx ⊢
        exact ih (Nat.le_of_succ_le_succ hk) hx

theorem forward_readItemsLoop {parse : Parser α} (hparse : Forward parse) :
    Forward (do
      let left ← remaining
      readItemsLoop parse (left + 1) []) := by
  intro r h
  rw [Ends, remaining_bind h]
  apply (readItemsLoop_ends hparse h (Nat.lt_succ_self _) []).mono
  · exact fun _ t ht => ht.1
  · exact fun _ t ht => ht

theorem readItems_ends {parse : Parser α} (hparse : Forward parse) (h : r.InBounds) (len : ℕ) :
    Ends (readItems parse len) r
      (fun _ t => r.depth < r.maxDepth ∧ r.pos + len ≤ r.buf.length ∧ t = r.moveTo (r.pos + len))
      (fun _ t => Moved r t) :=
  readScoped_ends (forward_readItemsLoop hparse) h len

theorem readVector_ends {readLen : Parser ℕ} {parse : Parser α} (hlen : IsPrefix w readLen)
    (hparse : Forward parse) (h : r.InBounds) :
    Ends (readVector readLen parse) r
      (fun _ t => r.depth < r.maxDepth ∧ r.pos + w + declared w r ≤ r.buf.length ∧
        t = r.moveTo (r.pos + w + declared w r))
      (fun _ t => Moved r t) := by
  apply hlen.ends_bind h
  intro hw
  have hin : (r.moveTo (r.pos + w)).InBounds := hw
  exact readItems_ends hparse hin (declared w r)

end Cursor

end Mtc
