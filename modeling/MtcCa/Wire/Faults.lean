import MtcCa.Lib.SelfDelimiting
import MtcCa.Wire.Codec

/-! Where a read goes wrong: for each reader function, the structural errors it fails with, said by
the bytes in front of it and the position of the first of them. -/
namespace Mtc

namespace WireError

/-- The errors about bytes that are missing or left over, and not about what they say. -/
def Structural : WireError → Prop
  | unexpectedEof .. => True
  | lengthOverflow .. => True
  | trailingBytes .. => True
  | _ => False

/-- The same structural error `k` bytes further on. -/
def shift (k : ℕ) : WireError → WireError
  | unexpectedEof offset needed remaining => unexpectedEof (offset + k) needed remaining
  | lengthOverflow offset claimed remaining => lengthOverflow (offset + k) claimed remaining
  | trailingBytes offset remaining => trailingBytes (offset + k) remaining
  | err => err

theorem shift_ne {k : ℕ} {err : WireError} (hk : 0 < k) (hs : err.Structural) :
    err ≠ err.shift k := by
  intro h
  cases err with
  | unexpectedEof | lengthOverflow | trailingBytes =>
    injection h
    omega
  | depthLimitExceeded | zeroWidthElement | invalidValue => exact hs

end WireError

/-- What is wrong with bytes that start at a position and reach to the end of their scope. -/
abbrev Fault := ℕ → List UInt8 → WireError → Prop

section faults

variable {α β : Type}

/-- Fewer than `n` bytes: the fault is where their read starts. -/
def bytesFault (n : ℕ) : Fault := fun pos input err =>
  input.length < n ∧ err = .unexpectedEof pos n input.length

/-- Fewer bytes than announced: the fault is where the body starts. -/
def overflowFault (len : ℕ) : Fault := fun pos input err =>
  input.length < len ∧ err = .lengthOverflow pos len input.length

/-- Any byte at all: the fault is the first of them. -/
def trailingFault : Fault := fun pos input err =>
  input ≠ [] ∧ err = .trailingBytes pos input.length

/-- A fault behind the encoding of a value. -/
def Fault.after (Q : β → List UInt8 → Prop) (G : β → Fault) : Fault := fun pos input err =>
  ∃ v c rest, Q v c ∧ input = c ++ rest ∧ G v (pos + c.length) rest err

/-- A fault in the first `len` bytes alone. -/
def Fault.within (len : ℕ) (F : Fault) : Fault := fun pos input err =>
  ∃ body rest, body.length = len ∧ input = body ++ rest ∧ F pos body err

/-- A fault in the bytes behind whole items. -/
def Fault.afterItems [TlsSerialize α] (P : α → Prop) (F : Fault) : Fault := fun pos input err =>
  ∃ items c tail, (∀ v ∈ items, P v) ∧ serializeItems items = .ok c ∧ input = c ++ tail ∧
    tail ≠ [] ∧ F (pos + c.length) tail err

/-- A fault of a read, or behind what it reads. -/
def Fault.andThen (F : Fault) (Q : β → List UInt8 → Prop) (G : β → Fault) : Fault :=
  fun pos input err => F pos input err ∨ Fault.after Q G pos input err

/-- A fault of a body of `len` bytes. -/
def scopedFault (len : ℕ) (F : Fault) : Fault := fun pos input err =>
  overflowFault len pos input err ∨ F.within len pos input err

def lengthEncoding (w len : ℕ) (c : List UInt8) : Prop :=
  len < 256 ^ w ∧ c = BigEndian.encode w len

/-- A fault of a body behind its length in `w` bytes. -/
def prefixedFault (w : ℕ) (F : Fault) : Fault :=
  (bytesFault w).andThen (lengthEncoding w) (fun len => scopedFault len F)

/-- No bytes are wrong. -/
def noFault : Fault := fun _ _ _ => False

end faults

namespace TlsReader

variable {α β γ : Type} {d n w len : ℕ} {F : Fault} {G : β → Fault} {Q : β → List UInt8 → Prop}
  {r r' : TlsReader} {b : List UInt8} {err : WireError}
  {p : TlsReader → Except WireError (β × TlsReader)}

theorem Consumes.offset (h : r.Consumes b r') : r'.offset = r.offset + b.length := by
  rw [TlsReader.offset, TlsReader.offset, h.baseOffset, h.pos, Nat.add_assoc]

/-- `p` reads exactly the values that `Q` gives encodings. -/
def Accepts (p : TlsReader → Except WireError (β × TlsReader)) (Q : β → List UInt8 → Prop)
    (d : ℕ) : Prop :=
  ∀ r v r', r.depth + d ≤ r.maxDepth → (p r = .ok (v, r') ↔ ∃ b, Q v b ∧ r.Consumes b r')

/-- The structural errors of `p` are the faults of the unread bytes. -/
def FailsAs (p : TlsReader → Except WireError β) (F : Fault) (d : ℕ) : Prop :=
  ∀ r err, r.depth + d ≤ r.maxDepth →
    (p r = .error err ∧ err.Structural ↔ F r.offset r.rest err)

theorem FailsAs.mono {p : TlsReader → Except WireError β} {d' : ℕ} (h : FailsAs p F d)
    (hd : d ≤ d') : FailsAs p F d' :=
  fun r err hdepth => h r err (by omega)

theorem Accepts.mono {d' : ℕ} (h : Accepts p Q d) (hd : d ≤ d') : Accepts p Q d' :=
  fun r v r' hdepth => h r v r' (by omega)

/-- The faults of two reads in a row. -/
theorem FailsAs.bind {k : β × TlsReader → Except WireError γ} (hok : Accepts p Q d)
    (hp : FailsAs p F d) (hk : ∀ v, FailsAs (fun r => k (v, r)) (G v) d) :
    FailsAs (fun r => p r >>= k) (F.andThen Q G) d := by
  intro r err hdepth
  constructor
  · rintro ⟨h, hs⟩
    rcases Outcome.bind_eq_error_iff.mp h with h | ⟨⟨v, r'⟩, hv, h⟩
    · exact Or.inl ((hp r err hdepth).mp ⟨h, hs⟩)
    · obtain ⟨c, hQ, hc⟩ := (hok r v r' hdepth).mp hv
      refine Or.inr ⟨v, c, r'.rest, hQ, hc.rest, ?_⟩
      rw [← hc.offset]
      exact (hk v r' err (hc.depth_le hdepth)).mp ⟨h, hs⟩
  · rintro (h | ⟨v, c, rest, hQ, hrest, h⟩)
    · obtain ⟨hp', hs⟩ := (hp r err hdepth).mpr h
      exact ⟨Outcome.bind_eq_error_iff.mpr (Or.inl hp'), hs⟩
    · obtain ⟨r', hc⟩ := exists_consumes (r := r) (b := c) ⟨rest, hrest.symm⟩
      obtain rfl : r'.rest = rest := List.append_cancel_left (hc.rest.symm.trans hrest)
      rw [← hc.offset] at h
      obtain ⟨hk', hs⟩ := (hk v r' err (hc.depth_le hdepth)).mpr h
      have hv := (hok r v r' hdepth).mpr ⟨c, hQ, hc⟩
      exact ⟨Outcome.bind_eq_error_iff.mpr (Or.inr ⟨(v, r'), hv, hk'⟩), hs⟩

/-- What comes after a read adds no fault when it has no structural error of its own. -/
theorem FailsAs.bind_pure {p : TlsReader → Except WireError β} {k : β → Except WireError γ}
    (hp : FailsAs p F d) (hk : ∀ v err, k v = .error err → ¬ err.Structural) :
    FailsAs (fun r => p r >>= k) F d := by
  intro r err hdepth
  rw [← hp r err hdepth]
  constructor
  · rintro ⟨h, hs⟩
    rcases Outcome.bind_eq_error_iff.mp h with h | ⟨v, -, h⟩
    · exact ⟨h, hs⟩
    · exact absurd hs (hk v err h)
  · rintro ⟨h, hs⟩
    exact ⟨Outcome.bind_eq_error_iff.mpr (Or.inl h), hs⟩

theorem failsAs_readBytes (n : ℕ) : FailsAs (fun r => r.readBytes n) (bytesFault n) 0 := by
  intro r err _
  have hpos := r.pos_le
  have hrem : r.remaining = r.buf.length - r.pos := rfl
  simp only [bytesFault, length_rest, readBytes]
  split
  · next hle =>
    constructor
    · rintro ⟨h, -⟩
      cases h
    · rintro ⟨hlt, -⟩
      omega
  · next hgt =>
    constructor
    · rintro ⟨h, -⟩
      cases h
      exact ⟨by omega, rfl⟩
    · rintro ⟨-, rfl⟩
      exact ⟨rfl, trivial⟩

theorem failsAs_readArray (n : ℕ) : FailsAs (fun r => r.readArray n) (bytesFault n) 0 := by
  intro r err hdepth
  rw [← failsAs_readBytes n r err hdepth]
  simp only [readArray]
  split
  · next e he => rw [he, Except.error.injEq, Except.error.injEq]
  · next bytes r₁ hok => simp [hok]

theorem not_structural_of_ok {v : β} : (.ok v : Except WireError β) = .error err →
    ¬ err.Structural := by
  intro h
  cases h

theorem failsAs_readU8 : FailsAs readU8 (bytesFault 1) 0 :=
  (failsAs_readArray 1).bind_pure fun _ _ => not_structural_of_ok

theorem failsAs_readU16 : FailsAs readU16 (bytesFault 2) 0 :=
  (failsAs_readArray 2).bind_pure fun _ _ => not_structural_of_ok

theorem failsAs_readLenU8 : FailsAs readLenU8 (bytesFault 1) 0 :=
  failsAs_readU8.bind_pure fun _ _ => not_structural_of_ok

theorem failsAs_readLenU16 : FailsAs readLenU16 (bytesFault 2) 0 :=
  failsAs_readU16.bind_pure fun _ _ => not_structural_of_ok

theorem accepts_readU16 :
    Accepts readU16 (fun v c => c = BigEndian.encode 2 v.toNat) 0 := by
  intro r v r' _
  rw [readU16_eq_ok_iff]
  exact ⟨fun h => ⟨_, rfl, h⟩, fun ⟨_, hc, h⟩ => hc ▸ h⟩

theorem accepts_readLen {readLen : TlsReader → Except WireError (ℕ × TlsReader)}
    (hlen : ReadsLen w readLen) : Accepts readLen (lengthEncoding w) 0 := by
  intro r v r' _
  rw [hlen r v r']
  exact ⟨fun ⟨hlt, h⟩ => ⟨_, ⟨hlt, rfl⟩, h⟩, fun ⟨_, ⟨hlt, hc⟩, h⟩ => ⟨hlt, hc ▸ h⟩⟩

theorem failsAs_finish : FailsAs finish trailingFault 0 := by
  intro r err _
  rw [finish, trailingFault]
  split
  · next hrest =>
    refine iff_of_false ?_ (fun h => h.1 (isEmpty_iff.mp hrest))
    rintro ⟨h, -⟩
    cases h
  · next hrest =>
    rw [Except.error.injEq, length_rest]
    constructor
    · rintro ⟨rfl, -⟩
      exact ⟨fun h => hrest (isEmpty_iff.mpr h), rfl⟩
    · rintro ⟨-, rfl⟩
      exact ⟨rfl, trivial⟩

/-- A body is read whole, and what is done with it has the faults of its bytes. -/
theorem takeBody_bind_error_iff {k : List UInt8 × TlsReader → Except WireError γ}
    (hk : ∀ body r', r.Consumes body r' →
      (k (body, r') = .error err ∧ err.Structural ↔ F r.offset body err)) :
    (r.takeBody len >>= k) = .error err ∧ err.Structural ↔
      scopedFault len F r.offset r.rest err := by
  by_cases hlt : r.remaining < len
  · have htake : r.takeBody len = .error (.lengthOverflow r.offset len r.remaining) := if_pos hlt
    rw [htake, Outcome.error_bind, Except.error.injEq]
    constructor
    · rintro ⟨rfl, -⟩
      exact Or.inl ⟨length_rest ▸ hlt, by rw [length_rest]⟩
    · rintro (⟨-, rfl⟩ | ⟨body, rest, hlen, hrest, -⟩)
      · exact ⟨by rw [length_rest], trivial⟩
      · rw [← length_rest, hrest, List.length_append] at hlt
        omega
  · rw [← length_rest] at hlt
    obtain ⟨r', hc⟩ := exists_consumes (r := r) (b := r.rest.take len) (List.take_prefix ..)
    have hlen : (r.rest.take len).length = len := by
      rw [List.length_take]
      omega
    rw [takeBody_eq_ok_iff.mpr ⟨hlen, hc⟩, Outcome.ok_bind, hk _ _ hc]
    constructor
    · intro h
      exact Or.inr ⟨_, r'.rest, hlen, hc.rest, h⟩
    · rintro (⟨hover, -⟩ | ⟨body, rest, hbody, hrest, h⟩)
      · exact absurd hover hlt
      · rwa [hrest, ← hbody, List.take_left]

theorem failsAs_readOpaque {readLen : TlsReader → Except WireError (ℕ × TlsReader)}
    (hlen : ReadsLen w readLen) (hp : FailsAs readLen (bytesFault w) 0) :
    FailsAs (fun r => r.readOpaque readLen) (prefixedFault w noFault) 0 := by
  refine FailsAs.bind (accepts_readLen hlen) hp fun len r err _ => ?_
  have hpure : (r.takeBody len >>= fun x => .ok x) = r.takeBody len := bind_pure _
  have h : (r.takeBody len >>= fun x => .ok x) = .error err ∧ _ ↔ scopedFault len noFault _ _ _ :=
    takeBody_bind_error_iff fun _ _ _ => iff_of_false (fun h => by cases h.1) id
  rwa [hpure] at h

section items

variable [TlsSerialize α] [TlsParse α] {P : α → Prop}

theorem Accepts.of_canonical (h : Canonical P d) :
    Accepts (tlsParse : TlsReader → Except WireError (α × TlsReader))
      (fun v b => P v ∧ tlsSerialize v = .ok b) d := by
  intro r v r' hdepth
  rw [h r r' v hdepth]
  exact ⟨fun ⟨hv, b, hb, hc⟩ => ⟨b, ⟨hv, hb⟩, hc⟩, fun ⟨b, ⟨hv, hb⟩, hc⟩ => ⟨hv, b, hb, hc⟩⟩

theorem Accepts.of_canonical_true (h : Canonical (fun _ : α => True) d) :
    Accepts (tlsParse : TlsReader → Except WireError (α × TlsReader))
      (fun v b => tlsSerialize v = .ok b) d := by
  intro r v r' hdepth
  rw [h r r' v hdepth, and_iff_right trivial]

/-- The item loop ends only at the end of the body. -/
theorem rest_of_readItemsLoop (hcan : Canonical P d) (hne : NeverEmpty α) {fuel : ℕ}
    {sub sub' : TlsReader} {acc items : List α} (hdepth : sub.depth + d ≤ sub.maxDepth)
    (hfuel : sub.remaining ≤ fuel) (h : readItemsLoop tlsParse fuel sub acc = .ok (items, sub')) :
    sub'.rest = [] := by
  induction fuel generalizing sub acc with
  | zero =>
    cases h
    rw [← List.length_eq_zero_iff, length_rest]
    omega
  | succ fuel ih =>
    unfold readItemsLoop at h
    by_cases hempty : sub.isEmpty = true
    · rw [if_pos hempty] at h
      cases h
      exact isEmpty_iff.mp hempty
    · rw [if_neg hempty] at h
      obtain ⟨⟨item, sub₁⟩, hparse, hloop⟩ := Outcome.bind_eq_ok_iff.mp h
      obtain ⟨-, b, hb, hc⟩ := (hcan _ _ _ hdepth).mp hparse
      obtain ⟨-, hloop⟩ := Outcome.ite_error_eq_ok_iff.mp hloop
      have hrem := hc.remaining_lt (hne item b hb)
      exact ih (hc.depth_le hdepth) (by omega) hloop

omit [TlsParse α] in
/-- The fault is in the first item, or the first item is whole. -/
theorem afterItems_iff {pos : ℕ} {input : List UInt8} :
    F.afterItems P pos input err ↔ input ≠ [] ∧ F pos input err ∨ ∃ v c rest, P v ∧
      tlsSerialize v = .ok c ∧ input = c ++ rest ∧ F.afterItems P (pos + c.length) rest err := by
  constructor
  · rintro ⟨items, c, tail, hall, hc, rfl, htail, hF⟩
    cases items with
    | nil =>
      cases hc
      exact Or.inl ⟨htail, hF⟩
    | cons item items =>
      obtain ⟨hitem, hitems⟩ := List.forall_mem_cons.mp hall
      obtain ⟨b₁, b₂, hb₁, hb₂, rfl⟩ := serializeItems_cons_eq_ok_iff.mp hc
      refine Or.inr ⟨item, b₁, b₂ ++ tail, hitem, hb₁, List.append_assoc .., ?_⟩
      rw [List.length_append, ← Nat.add_assoc] at hF
      exact ⟨items, b₂, tail, hitems, hb₂, rfl, htail, hF⟩
  · rintro (⟨hne, hF⟩ | ⟨v, b₁, _, hv, hb₁, rfl, items, b₂, tail, hall, hb₂, rfl, htail, hF⟩)
    · exact ⟨[], [], input, by simp, rfl, rfl, hne, hF⟩
    · refine ⟨v :: items, b₁ ++ b₂, tail, List.forall_mem_cons.mpr ⟨hv, hall⟩,
        serializeItems_cons_eq_ok_iff.mpr ⟨b₁, b₂, hb₁, hb₂, rfl⟩,
        (List.append_assoc ..).symm, htail, ?_⟩
      rwa [List.length_append, ← Nat.add_assoc]

omit [TlsParse α] in
theorem not_afterItems_nil {pos : ℕ} : ¬ F.afterItems P pos [] err := by
  rintro ⟨items, c, tail, -, -, hnil, htail, -⟩
  exact htail (List.append_eq_nil_iff.mp hnil.symm).2

theorem readItemsLoop_error_iff (hcan : Canonical P d) (hne : NeverEmpty α)
    (hF : FailsAs (tlsParse : TlsReader → Except WireError (α × TlsReader)) F d) {fuel : ℕ}
    {sub : TlsReader} {acc : List α} (hdepth : sub.depth + d ≤ sub.maxDepth)
    (hfuel : sub.remaining ≤ fuel) :
    readItemsLoop tlsParse fuel sub acc = .error err ∧ err.Structural ↔
      F.afterItems P sub.offset sub.rest err := by
  induction fuel generalizing sub acc with
  | zero =>
    have hrest : sub.rest = [] := by
      rw [← List.length_eq_zero_iff, length_rest]
      omega
    rw [hrest]
    refine iff_of_false ?_ not_afterItems_nil
    rintro ⟨h, -⟩
    cases h
  | succ fuel ih =>
    unfold readItemsLoop
    by_cases hempty : sub.isEmpty = true
    · rw [if_pos hempty, isEmpty_iff.mp hempty]
      refine iff_of_false ?_ not_afterItems_nil
      rintro ⟨h, -⟩
      cases h
    have hrest : sub.rest ≠ [] := fun h => hempty (isEmpty_iff.mpr h)
    rw [if_neg hempty, afterItems_iff, Outcome.bind_eq_error_iff]
    constructor
    · rintro ⟨h | ⟨⟨item, sub₁⟩, hparse, h⟩, hs⟩
      · exact Or.inl ⟨hrest, (hF sub err hdepth).mp ⟨h, hs⟩⟩
      · obtain ⟨hitem, b, hb, hc⟩ := (hcan _ _ _ hdepth).mp hparse
        have hrem := hc.remaining_lt (hne item b hb)
        have hmoved := hc.position_ne (hne item b hb)
        simp only [if_neg hmoved] at h
        refine Or.inr ⟨item, b, sub₁.rest, hitem, hb, hc.rest, ?_⟩
        rw [← hc.offset]
        exact (ih (hc.depth_le hdepth) (by omega)).mp ⟨h, hs⟩
    · rintro (⟨-, h⟩ | ⟨item, b, rest, hitem, hb, hsub, h⟩)
      · obtain ⟨hparse, hs⟩ := (hF sub err hdepth).mpr h
        exact ⟨Or.inl hparse, hs⟩
      · obtain ⟨sub₁, hc⟩ := exists_consumes (r := sub) (b := b) ⟨rest, hsub.symm⟩
        obtain rfl : sub₁.rest = rest := List.append_cancel_left (hc.rest.symm.trans hsub)
        have hrem := hc.remaining_lt (hne item b hb)
        have hmoved := hc.position_ne (hne item b hb)
        rw [← hc.offset] at h
        obtain ⟨hloop, hs⟩ : readItemsLoop tlsParse fuel sub₁ (acc ++ [item]) = .error err ∧ _ :=
          (ih (hc.depth_le hdepth) (by omega)).mpr h
        refine ⟨Or.inr ⟨(item, sub₁), (hcan _ _ _ hdepth).mpr ⟨hitem, b, hb, hc⟩, ?_⟩, hs⟩
        simp only [if_neg hmoved]
        exact hloop

theorem failsAs_readItems (hcan : Canonical P d) (hne : NeverEmpty α)
    (hF : FailsAs (tlsParse : TlsReader → Except WireError (α × TlsReader)) F d) (len : ℕ) :
    FailsAs (fun r => r.readItems (α := α) len) (scopedFault len (F.afterItems P)) (d + 1) := by
  intro r err hdepth
  have hbudget : ¬ r.maxDepth ≤ r.depth := by omega
  simp only [readItems, readScoped, if_neg hbudget]
  refine takeBody_bind_error_iff fun body r' _ => ?_
  have hscope : (r.scope body).depth + d ≤ (r.scope body).maxDepth := by
    simp only [scope]
    omega
  have hloop : readItemsLoop tlsParse (r.scope body).remaining (r.scope body) [] = .error err ∧ _ ↔
      _ := readItemsLoop_error_iff hcan hne hF hscope le_rfl
  refine Iff.trans ?_ hloop
  rw [Outcome.bind_eq_error_iff]
  constructor
  · rintro ⟨h | ⟨⟨items, sub⟩, hok, h⟩, hs⟩
    · exact ⟨h, hs⟩
    · have hdone := isEmpty_iff.mpr (rest_of_readItemsLoop hcan hne hscope le_rfl hok)
      simp only [hdone, not_true, if_false] at h
      cases h
  · rintro ⟨h, hs⟩
    exact ⟨Or.inl h, hs⟩

theorem failsAs_readVector (hcan : Canonical P d) (hne : NeverEmpty α)
    (hF : FailsAs (tlsParse : TlsReader → Except WireError (α × TlsReader)) F d)
    {readLen : TlsReader → Except WireError (ℕ × TlsReader)} (hlen : ReadsLen w readLen)
    (hp : FailsAs readLen (bytesFault w) 0) :
    FailsAs (fun r => r.readVector (α := α) readLen) (prefixedFault w (F.afterItems P)) (d + 1) :=
  FailsAs.bind ((accepts_readLen hlen).mono (Nat.zero_le _)) (hp.mono (Nat.zero_le _))
    (failsAs_readItems hcan hne hF)

end items

end TlsReader

namespace Fault

variable {α β : Type} {n w len : ℕ} {F H : Fault} {G G' : β → Fault} {Q : β → List UInt8 → Prop}

/-- Moving the bytes moves the fault with them. -/
def Shifts (F : Fault) : Prop :=
  ∀ pos k input err, F (pos + k) input err ↔ ∃ e, F pos input e ∧ err = e.shift k

theorem shifts_bytesFault : Shifts (bytesFault n) := by
  intro pos k input err
  constructor
  · rintro ⟨hlt, rfl⟩
    exact ⟨_, ⟨hlt, rfl⟩, rfl⟩
  · rintro ⟨_, ⟨hlt, rfl⟩, rfl⟩
    exact ⟨hlt, rfl⟩

theorem shifts_overflowFault : Shifts (overflowFault len) := by
  intro pos k input err
  constructor
  · rintro ⟨hlt, rfl⟩
    exact ⟨_, ⟨hlt, rfl⟩, rfl⟩
  · rintro ⟨_, ⟨hlt, rfl⟩, rfl⟩
    exact ⟨hlt, rfl⟩

theorem shifts_trailingFault : Shifts trailingFault := by
  intro pos k input err
  constructor
  · rintro ⟨hne, rfl⟩
    exact ⟨_, ⟨hne, rfl⟩, rfl⟩
  · rintro ⟨_, ⟨hne, rfl⟩, rfl⟩
    exact ⟨hne, rfl⟩

theorem shifts_noFault : Shifts noFault :=
  fun _ _ _ _ => ⟨False.elim, fun ⟨_, h, _⟩ => h⟩

theorem Shifts.or {F F' : Fault} (hF : Shifts F) (hF' : Shifts F') :
    Shifts fun pos input err => F pos input err ∨ F' pos input err := by
  intro pos k input err
  simp only [hF pos k input err, hF' pos k input err, or_and_right, exists_or]

theorem Shifts.after (hG : ∀ v, Shifts (G v)) : Shifts (after Q G) := by
  intro pos k input err
  constructor
  · rintro ⟨v, c, rest, hQ, hinput, h⟩
    rw [Nat.add_right_comm] at h
    obtain ⟨e, he, rfl⟩ := (hG v _ k rest err).mp h
    exact ⟨e, ⟨v, c, rest, hQ, hinput, he⟩, rfl⟩
  · rintro ⟨e, ⟨v, c, rest, hQ, hinput, he⟩, rfl⟩
    refine ⟨v, c, rest, hQ, hinput, ?_⟩
    rw [Nat.add_right_comm]
    exact (hG v _ k rest _).mpr ⟨e, he, rfl⟩

theorem Shifts.andThen (hF : Shifts F) (hG : ∀ v, Shifts (G v)) : Shifts (F.andThen Q G) :=
  hF.or (.after hG)

theorem Shifts.within (hF : Shifts F) : Shifts (F.within len) := by
  intro pos k input err
  constructor
  · rintro ⟨body, rest, hlen, hinput, h⟩
    obtain ⟨e, he, rfl⟩ := (hF pos k body err).mp h
    exact ⟨e, ⟨body, rest, hlen, hinput, he⟩, rfl⟩
  · rintro ⟨e, ⟨body, rest, hlen, hinput, he⟩, rfl⟩
    exact ⟨body, rest, hlen, hinput, (hF pos k body _).mpr ⟨e, he, rfl⟩⟩

theorem Shifts.prefixed (hF : Shifts F) : Shifts (prefixedFault w F) :=
  shifts_bytesFault.andThen fun _ => shifts_overflowFault.or hF.within

theorem Shifts.afterItems [TlsSerialize α] {P : α → Prop} (hF : Shifts F) :
    Shifts (F.afterItems P) := by
  intro pos k input err
  constructor
  · rintro ⟨items, c, tail, hall, hc, hinput, htail, h⟩
    rw [Nat.add_right_comm] at h
    obtain ⟨e, he, rfl⟩ := (hF _ k tail err).mp h
    exact ⟨e, ⟨items, c, tail, hall, hc, hinput, htail, he⟩, rfl⟩
  · rintro ⟨e, ⟨items, c, tail, hall, hc, hinput, htail, he⟩, rfl⟩
    refine ⟨items, c, tail, hall, hc, hinput, htail, ?_⟩
    rw [Nat.add_right_comm]
    exact (hF _ k tail _).mpr ⟨e, he, rfl⟩

/-- No bytes have both faults. -/
def Excludes (F H : Fault) : Prop :=
  ∀ ⦃pos pos' input err err'⦄, F pos input err → H pos' input err' → False

theorem excludes_noFault : Excludes noFault H := fun _ _ _ _ _ h _ => h

/-- Behind a value of `n` bytes the faults are told apart by those of the rest. -/
theorem Excludes.andThen (hlen : ∀ v c, Q v c → c.length = n)
    (hinj : ∀ v v' c, Q v c → Q v' c → v = v') (hG : ∀ v, Excludes (G v) (G' v)) :
    Excludes ((bytesFault n).andThen Q G) (Fault.after Q G') := by
  rintro pos pos' input err err' (⟨hlt, -⟩ | ⟨v, c, rest, hQ, rfl, h⟩)
    ⟨v', c', rest', hQ', heq, h'⟩
  · have hc' := hlen v' c' hQ'
    rw [heq, List.length_append] at hlt
    omega
  · obtain ⟨rfl, rfl⟩ := List.append_inj heq ((hlen v c hQ).trans (hlen v' c' hQ').symm)
    obtain rfl := hinj v v' c hQ hQ'
    exact hG v h h'

theorem length_lengthEncoding {c : List UInt8} (h : lengthEncoding w len c) : c.length = w := by
  rw [h.2, BigEndian.length_encode]

theorem Excludes.prefixed (h : Excludes F H) :
    Excludes (prefixedFault w F) (Fault.after (lengthEncoding w) (fun len => H.within len)) := by
  refine Excludes.andThen (fun _ _ => length_lengthEncoding) ?_ fun len => ?_
  · rintro len len' c ⟨hlt, rfl⟩ ⟨hlt', heq⟩
    exact BigEndian.encode_inj hlt hlt' heq
  · rintro pos pos' input err err' (⟨hlt, -⟩ | ⟨body, rest, hlen, rfl, hF⟩)
      ⟨body', rest', hlen', heq, hH⟩
    · rw [heq, List.length_append] at hlt
      omega
    · obtain ⟨rfl, -⟩ := List.append_inj heq (hlen.trans hlen'.symm)
      exact h hF hH

/-- Where the fault is, no value can be read. -/
def Blocks [TlsSerialize α] (P : α → Prop) (F : Fault) : Prop :=
  ∀ ⦃pos err v c rest⦄, F pos (c ++ rest) err → P v → tlsSerialize v = .ok c → False

theorem Blocks.of_failsAs [TlsSerialize α] [TlsParse α] {P : α → Prop} {d : ℕ}
    (hcan : Canonical P d)
    (hF : TlsReader.FailsAs (tlsParse : TlsReader → Except WireError (α × TlsReader)) F d) :
    Blocks P F := by
  intro pos err v c rest h hv hc
  let r : TlsReader := ⟨c ++ rest, 0, pos, 0, d, Nat.zero_le _⟩
  have hdepth : r.depth + d ≤ r.maxDepth := (Nat.zero_add d).le
  obtain ⟨r', hr⟩ := TlsReader.exists_consumes (r := r) (b := c) (List.prefix_append ..)
  have hok := (hcan r r' v hdepth).mpr ⟨hv, c, hc, hr⟩
  have herror := ((hF r err hdepth).mpr h).1
  rw [hok] at herror
  cases herror

/-- The items in front of a fault are always the same ones. -/
theorem Excludes.afterItems [TlsSerialize α] {P : α → Prop} (h : Excludes F H)
    (hd : Encoding.SelfDelimiting (tlsSerialize : α → Except WriteError (List UInt8)))
    (hF : Blocks P F) (hH : Blocks P H) : Excludes (F.afterItems P) (H.afterItems P) := by
  rintro pos pos' input err err' ⟨items, c, tail, hall, hc, rfl, -, hfault⟩
    ⟨items', c', tail', hall', hc', heq, -, hfault'⟩
  generalize pos + c.length = at_fault at hfault
  generalize pos' + c'.length = at_fault' at hfault'
  induction items generalizing items' c c' with
  | nil =>
    cases hc
    cases items' with
    | nil =>
      cases hc'
      obtain rfl : tail = tail' := heq
      exact h hfault hfault'
    | cons item' items' =>
      obtain ⟨b₁, b₂, hb₁, -, rfl⟩ := serializeItems_cons_eq_ok_iff.mp hc'
      obtain rfl : tail = b₁ ++ (b₂ ++ tail') := by
        rw [← List.append_assoc]
        exact heq
      exact hF hfault (hall' item' List.mem_cons_self) hb₁
  | cons item items ih =>
    obtain ⟨b₁, b₂, hb₁, hb₂, rfl⟩ := serializeItems_cons_eq_ok_iff.mp hc
    cases items' with
    | nil =>
      cases hc'
      obtain rfl : b₁ ++ (b₂ ++ tail) = tail' := by
        rw [← List.append_assoc]
        exact heq
      exact hH hfault' (hall item List.mem_cons_self) hb₁
    | cons item' items' =>
      obtain ⟨b₁', b₂', hb₁', hb₂', rfl⟩ := serializeItems_cons_eq_ok_iff.mp hc'
      rw [List.append_assoc, List.append_assoc] at heq
      obtain ⟨rfl, hrest⟩ := hd hb₁ hb₁' heq
      exact ih b₂ (fun v hv => hall v (List.mem_cons_of_mem _ hv)) hb₂ items' b₂'
        (fun v hv => hall' v (List.mem_cons_of_mem _ hv)) hb₂' hrest

end Fault

end Mtc
