import MtcCa.Lib.Checked
import MtcCa.Lib.Mutating
import MtcCa.Wire.Reader

/-! The bounded reader as a mutable cursor, whose position nothing but the code keeps within the
bytes, and which an error leaves where it was at that point (`crates/mtc/src/wire/reader.rs`). -/
namespace Mtc

open Mutating

structure Cursor where
  buf : List UInt8
  pos : ℕ
  baseOffset : ℕ
  depth : ℕ
  maxDepth : ℕ

/-- A parser of the wire format. -/
abbrev Parser (α : Type) : Type := Op Cursor WireError α

namespace Cursor

variable {α : Type}

/-- The cursor moved to a position. -/
def moveTo (r : Cursor) (pos : ℕ) : Cursor := { r with pos := pos }

def position : Parser ℕ := do
  let r ← Op.get
  pure r.pos

/-- The bytes left; past the end the subtraction overflows. -/
def remaining : Parser ℕ := do
  let r ← Op.get
  match Checked.sub r.buf.length r.pos with
  | some n => pure n
  | none => Op.crash

def isEmpty : Parser Bool := do
  let n ← remaining
  pure (n = 0)

def offset : Parser ℕ := do
  let r ← Op.get
  pure (r.baseOffset + r.pos)

def unexpectedEof (n : ℕ) : Parser α := do
  let o ← offset
  let left ← remaining
  Op.fail (.unexpectedEof o n left)

/-- The bytes of a range, if it lies within the text. -/
def slice (buf : List UInt8) (start stop : ℕ) : Option (List UInt8) :=
  if start ≤ stop ∧ stop ≤ buf.length then some (buf.extract start stop) else none

def readBytes (n : ℕ) : Parser (List UInt8) := do
  let r ← Op.get
  let fits := match Checked.add 64 r.pos n with
    | some stop => decide (stop ≤ r.buf.length)
    | none => false
  if !fits then unexpectedEof n
  else
    let stop := r.pos + n
    match slice r.buf r.pos stop with
    | some bytes => do
      Op.set (r.moveTo stop)
      pure bytes
    | none => unexpectedEof n

/-- A copy into an array needs as many bytes as the array has. -/
def readArray (n : ℕ) : Parser (Bytes n) := do
  let bytes ← readBytes n
  if h : bytes.length = n then pure ⟨bytes, h⟩ else Op.crash

def readU8 : Parser UInt8 := do
  let b ← readArray 1
  pure b.head

def readU16 : Parser UInt16 := do
  let b ← readArray 2
  pure (UInt16.ofNat (BigEndian.decode b.toList))

def readU24 : Parser U24 := do
  let b ← readArray 3
  pure (U24.fromLow24 (UInt32.ofNat (BigEndian.decode b.toList)))

def readU32 : Parser UInt32 := do
  let b ← readArray 4
  pure (UInt32.ofNat (BigEndian.decode b.toList))

/-- The body announced by a length prefix, checked against what remains. -/
def takeBody (len : ℕ) : Parser (List UInt8) := do
  let left ← remaining
  if left < len then do
    let o ← offset
    Op.fail (.lengthOverflow o len left)
  else readBytes len

/-- The length prefixes of one, two and three bytes. -/
def readLenU8 : Parser ℕ := do
  let len ← readU8
  pure len.toNat

def readLenU16 : Parser ℕ := do
  let len ← readU16
  pure len.toNat

def readLenU24 : Parser ℕ := do
  let len ← readU24
  pure len.get.toNat

/-- An opaque byte string behind a length prefix. -/
def readOpaque (readLen : Parser ℕ) : Parser (List UInt8) := do
  let len ← readLen
  takeBody len

def readOpaqueU8 : Parser (List UInt8) := readOpaque readLenU8

def readOpaqueU16 : Parser (List UInt8) := readOpaque readLenU16

def readOpaqueU24 : Parser (List UInt8) := readOpaque readLenU24

/-- What was read has to be all there is. -/
def consumed (value : α) : Parser α := do
  let empty ← isEmpty
  if !empty then do
    let o ← offset
    let left ← remaining
    Op.fail (.trailingBytes o left)
  else pure value

/-- Runs `body` on a cursor over the next `len` bytes, one level deeper. -/
def readScoped (len : ℕ) (body : Parser α) : Parser α := do
  let r ← Op.get
  if r.maxDepth ≤ r.depth then Op.fail (.depthLimitExceeded (r.baseOffset + r.pos) r.maxDepth)
  else
    let bodyAbs := r.baseOffset + r.pos
    let bodyBytes ← takeBody len
    Op.on ⟨bodyBytes, 0, bodyAbs, r.depth + 1, r.maxDepth⟩ do
      let value ← body
      consumed value

/-- The loop of `readItems`, for at most `fuel` tests of its condition. -/
def readItemsLoop (parse : Parser α) : ℕ → List α → Parser (List α)
  | 0, _ => Op.crash
  | fuel + 1, items => do
    let empty ← isEmpty
    if empty then pure items
    else
      let before ← position
      let item ← parse
      let after ← position
      if after = before then do
        let o ← offset
        Op.fail (.zeroWidthElement o)
      else readItemsLoop parse fuel (items ++ [item])

/-- Items from a length-prefixed body, until it is exhausted. A test for every byte and one at
the end are as many as the loop can need. -/
def readItems (parse : Parser α) (len : ℕ) : Parser (List α) :=
  readScoped len do
    let left ← remaining
    readItemsLoop parse (left + 1) []

def readVector (readLen : Parser ℕ) (parse : Parser α) : Parser (List α) := do
  let len ← readLen
  readItems parse len

def readVectorU8 (parse : Parser α) : Parser (List α) := readVector readLenU8 parse

def readVectorU16 (parse : Parser α) : Parser (List α) := readVector readLenU16 parse

def readVectorU24 (parse : Parser α) : Parser (List α) := readVector readLenU24 parse

end Cursor

end Mtc
