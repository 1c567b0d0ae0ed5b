import MtcCa.Wire.Reader

/-! The writers of the wire format (`crates/mtc/src/wire.rs`, `crates/mtc/src/wire/writer.rs`),
into a growing byte vector: each gives the bytes it appends. -/
namespace Mtc

/-- An encoding failure; a vector sink has no other. -/
inductive WriteError where
  | invalidData (message : String)
deriving DecidableEq

/-- The wire form of a type, as it is written. -/
class TlsSerialize (α : Type) where
  tlsSerialize : α → Except WriteError (List UInt8)

export TlsSerialize (tlsSerialize)

def tlsSerializeToVec {α : Type} [TlsSerialize α] (value : α) : Except WriteError (List UInt8) :=
  tlsSerialize value

def bodyTooLong (len prefixBytes : ℕ) : WriteError :=
  .invalidData ("body length " ++ toString len ++ " exceeds the capacity of a " ++
    toString prefixBytes ++ "-byte length prefix")

def writeU8 (value : UInt8) : Except WriteError (List UInt8) := .ok [value]

def writeU16 (value : UInt16) : Except WriteError (List UInt8) :=
  .ok (BigEndian.encode 2 value.toNat)

def writeU24 (value : U24) : Except WriteError (List UInt8) :=
  .ok (BigEndian.encode 3 value.get.toNat)

def writeU32 (value : UInt32) : Except WriteError (List UInt8) :=
  .ok (BigEndian.encode 4 value.toNat)

def writeBytes (bytes : List UInt8) : Except WriteError (List UInt8) := .ok bytes

/-- A byte string behind its length in `width` bytes. -/
def writeOpaque (width : ℕ) (bytes : List UInt8) : Except WriteError (List UInt8) :=
  if bytes.length < 256 ^ width then .ok (BigEndian.encode width bytes.length ++ bytes)
  else .error (bodyTooLong bytes.length width)

def writeOpaqueU8 (bytes : List UInt8) : Except WriteError (List UInt8) := writeOpaque 1 bytes

def writeOpaqueU16 (bytes : List UInt8) : Except WriteError (List UInt8) := writeOpaque 2 bytes

def writeOpaqueU24 (bytes : List UInt8) : Except WriteError (List UInt8) := writeOpaque 3 bytes

section vectors

variable {α : Type} [TlsSerialize α]

/-- The items one after another in one body. -/
def serializeItems (items : List α) : Except WriteError (List UInt8) :=
  items.foldlM (fun body item => do
    let bytes ← tlsSerialize item
    .ok (body ++ bytes)) []

def writeVector (width : ℕ) (items : List α) : Except WriteError (List UInt8) := do
  let body ← serializeItems items
  writeOpaque width body

def writeVectorU8 (items : List α) : Except WriteError (List UInt8) := writeVector 1 items

def writeVectorU16 (items : List α) : Except WriteError (List UInt8) := writeVector 2 items

def writeVectorU24 (items : List α) : Except WriteError (List UInt8) := writeVector 3 items

end vectors

instance : TlsSerialize UInt8 := ⟨writeU8⟩

instance : TlsSerialize UInt16 := ⟨writeU16⟩

instance : TlsSerialize UInt32 := ⟨writeU32⟩

instance : TlsSerialize U24 := ⟨writeU24⟩

instance {n : ℕ} : TlsSerialize (Bytes n) := ⟨fun b => writeBytes b.toList⟩

end Mtc
