import MtcCa.Lib.BigEndian
import MtcCa.Lib.Outcome
import MtcCa.Tree.Digest

/-! The bounded reader of the wire format (`crates/mtc/src/wire.rs`,
`crates/mtc/src/wire/reader.rs`, `crates/mtc/src/wire/error.rs`). A read takes the reader and
gives back the value with the reader after it. -/
namespace Mtc

inductive WireError where
  | unexpectedEof (offset needed remaining : ℕ)
  | lengthOverflow (offset claimed remaining : ℕ)
  | trailingBytes (offset remaining : ℕ)
  | depthLimitExceeded (offset limit : ℕ)
  | zeroWidthElement (offset : ℕ)
  | invalidValue (offset : ℕ) (reason : String)
deriving DecidableEq

/-- A 24-bit unsigned integer. -/
structure U24 where
  get : UInt32
  get_lt : get.toNat < 2 ^ 24
deriving DecidableEq

/-- The low 24 bits. -/
def U24.fromLow24 (value : UInt32) : U24 where
  get := value &&& 0x00FFFFFF
  get_lt := by
    rw [UInt32.toNat_and]
    exact lt_of_le_of_lt Nat.and_le_right (by decide)

/-- A cursor over a byte string that has not passed its end. -/
@[ext] structure TlsReader where
  buf : List UInt8
  pos : ℕ
  /-- The offset of the first byte of `buf` in the top-level input. -/
  baseOffset : ℕ
  depth : ℕ
  maxDepth : ℕ
  pos_le : pos ≤ buf.length
deriving DecidableEq

/-- The wire form of a type, as it is read. -/
class TlsParse (α : Type) where
  tlsParse : TlsReader → Except WireError (α × TlsReader)

export TlsParse (tlsParse)

namespace TlsReader

def defaultMaxDepth : ℕ := 32

def new (buf : List UInt8) : TlsReader := ⟨buf, 0, 0, 0, defaultMaxDepth, Nat.zero_le _⟩

def withMaxDepth (buf : List UInt8) (maxDepth : ℕ) : TlsReader :=
  ⟨buf, 0, 0, 0, maxDepth, Nat.zero_le _⟩

variable {α : Type} (r : TlsReader)

def position : ℕ := r.pos

def remaining : ℕ := r.buf.length - r.pos

def isEmpty : Bool := r.remaining = 0

/-- The offset of the cursor in the top-level input. -/
def offset : ℕ := r.baseOffset + r.pos

def readBytes (n : ℕ) : Except WireError (List UInt8 × TlsReader) :=
  if h : r.pos + n ≤ r.buf.length then
    .ok (r.buf.extract r.pos (r.pos + n), { r with pos := r.pos + n, pos_le := h })
  else .error (.unexpectedEof r.offset n r.remaining)

theorem length_of_readBytes {r r' : TlsReader} {n : ℕ} {b : List UInt8}
    (h : r.readBytes n = .ok (b, r')) : b.length = n := by
  unfold readBytes at h
  split at h
  · next hle =>
    cases h
    simp only [List.extract_eq_take_drop, List.length_take, List.length_drop]
    omega
  · cases h

/-- A fixed-size array of `n` bytes. -/
def readArray (n : ℕ) : Except WireError (Bytes n × TlsReader) :=
  match h : r.readBytes n with
  | .error e => .error e
  | .ok (b, r) => .ok (⟨b, length_of_readBytes h⟩, r)

def readU8 : Except WireError (UInt8 × TlsReader) := do
  let (b, r) ← r.readArray 1
  .ok (b.head, r)

def readU16 : Except WireError (UInt16 × TlsReader) := do
  let (b, r) ← r.readArray 2
  .ok (UInt16.ofNat (BigEndian.decode b.toList), r)

def readU24 : Except WireError (U24 × TlsReader) := do
  let (b, r) ← r.readArray 3
  .ok (U24.fromLow24 (UInt32.ofNat (BigEndian.decode b.toList)), r)

def readU32 : Except WireError (UInt32 × TlsReader) := do
  let (b, r) ← r.readArray 4
  .ok (UInt32.ofNat (BigEndian.decode b.toList), r)

/-- The body announced by a length prefix, checked against what remains. -/
def takeBody (len : ℕ) : Except WireError (List UInt8 × TlsReader) :=
  if r.remaining < len then .error (.lengthOverflow r.offset len r.remaining)
  else r.readBytes len

/-- The length prefixes of one, two and three bytes. -/
def readLenU8 : Except WireError (ℕ × TlsReader) := do
  let (len, r) ← r.readU8
  .ok (len.toNat, r)

def readLenU16 : Except WireError (ℕ × TlsReader) := do
  let (len, r) ← r.readU16
  .ok (len.toNat, r)

def readLenU24 : Except WireError (ℕ × TlsReader) := do
  let (len, r) ← r.readU24
  .ok (len.get.toNat, r)

/-- An opaque byte string behind a length prefix. -/
def readOpaque (readLen : TlsReader → Except WireError (ℕ × TlsReader)) :
    Except WireError (List UInt8 × TlsReader) := do
  let (len, r) ← readLen r
  r.takeBody len

def readOpaqueU8 : Except WireError (List UInt8 × TlsReader) := r.readOpaque readLenU8

def readOpaqueU16 : Except WireError (List UInt8 × TlsReader) := r.readOpaque readLenU16

def readOpaqueU24 : Except WireError (List UInt8 × TlsReader) := r.readOpaque readLenU24

/-- The reader of one length-delimited body of `r`, one level deeper. -/
def scope (body : List UInt8) : TlsReader :=
  ⟨body, 0, r.offset, r.depth + 1, r.maxDepth, Nat.zero_le _⟩

/-- Runs `body` on the next `len` bytes, all of which it has to consume. -/
def readScoped (len : ℕ) (body : TlsReader → Except WireError (α × TlsReader)) :
    Except WireError (α × TlsReader) :=
  if r.maxDepth ≤ r.depth then .error (.depthLimitExceeded r.offset r.maxDepth)
  else do
    let (bodyBytes, r') ← r.takeBody len
    let (value, sub) ← body (r.scope bodyBytes)
    if ¬ sub.isEmpty then .error (.trailingBytes sub.offset sub.remaining)
    else .ok (value, r')

/-- The loop of `readItems`. Every round moves the cursor, so as many rounds as bytes remain
are enough. -/
def readItemsLoop (parse : TlsReader → Except WireError (α × TlsReader)) :
    ℕ → TlsReader → List α → Except WireError (List α × TlsReader)
  | 0, sub, items => .ok (items, sub)
  | fuel + 1, sub, items =>
    if sub.isEmpty then .ok (items, sub)
    else do
      let (item, sub') ← parse sub
      if sub'.position = sub.position then .error (.zeroWidthElement sub'.offset)
      else readItemsLoop parse fuel sub' (items ++ [item])

/-- Items from a length-prefixed body, until it is exhausted. -/
def readItems [TlsParse α] (len : ℕ) : Except WireError (List α × TlsReader) :=
  r.readScoped len (fun sub => readItemsLoop tlsParse sub.remaining sub [])

def readVector [TlsParse α] (readLen : TlsReader → Except WireError (ℕ × TlsReader)) :
    Except WireError (List α × TlsReader) := do
  let (len, r) ← readLen r
  r.readItems len

def readVectorU8 [TlsParse α] : Except WireError (List α × TlsReader) := r.readVector readLenU8

def readVectorU16 [TlsParse α] : Except WireError (List α × TlsReader) := r.readVector readLenU16

def readVectorU24 [TlsParse α] : Except WireError (List α × TlsReader) := r.readVector readLenU24

def finish : Except WireError Unit :=
  if r.isEmpty then .ok () else .error (.trailingBytes r.offset r.remaining)

end TlsReader

/-- A value from a complete byte string. -/
def tlsParseExact {α : Type} [TlsParse α] (bytes : List UInt8) : Except WireError α := do
  let (value, reader) ← tlsParse (TlsReader.new bytes)
  reader.finish
  .ok value

instance : TlsParse UInt8 := ⟨TlsReader.readU8⟩

instance : TlsParse UInt16 := ⟨TlsReader.readU16⟩

instance : TlsParse UInt32 := ⟨TlsReader.readU32⟩

instance : TlsParse U24 := ⟨TlsReader.readU24⟩

instance {n : ℕ} : TlsParse (Bytes n) := ⟨fun r => r.readArray n⟩

end Mtc
