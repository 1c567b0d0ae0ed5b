import Mathlib

/-! The tree hash function and its domain-separated leaf and node constructions
(`crates/mtc/src/types.rs`, `crates/mtc/src/tree/digest.rs`). -/
namespace Mtc

/-- Zero-based position of one entry in the log; a `u64`. -/
abbrev Index := UInt64

/-- Number of entries in the log; a `u64`. -/
abbrev TreeSize := UInt64

/-- A fixed-size byte array `[u8; n]`. -/
abbrev Bytes (n : ℕ) := List.Vector UInt8 n

/-- A 32-byte hash output. -/
structure HashOutput where
  bytes : Bytes 32
deriving DecidableEq

def HashOutput.asBytes (h : HashOutput) : List UInt8 := h.bytes.toList

/-- The name of an issuance log, never empty. -/
structure LogId where
  str : String
  ne_empty : str ≠ ""
deriving DecidableEq

inductive IdError where
  | empty
deriving DecidableEq

def LogId.new (value : String) : Except IdError LogId :=
  if h : value = "" then .error .empty else .ok ⟨value, h⟩

/-- The UTF-8 bytes of the name. -/
def LogId.asBytes (id : LogId) : List UInt8 := id.str.toUTF8.data.toList

/-- Domain-separation prefix of leaf hashes. -/
def leafPrefix : UInt8 := 0x00

/-- Domain-separation prefix of interior-node hashes. -/
def nodePrefix : UInt8 := 0x01

/-- The hash function of the tree: an implementation supplies the raw digest of
a sequence of byte slices and nothing else. -/
structure Hasher where
  digest : List (List UInt8) → HashOutput

variable (H : Hasher)

/-- The root of the empty tree. -/
def emptyRoot : HashOutput := H.digest []

/-- The leaf hash of one encoded log entry. -/
def hashLeaf (entry : List UInt8) : HashOutput := H.digest [[leafPrefix], entry]

/-- The interior-node hash of two child hashes. -/
def hashNode (left right : HashOutput) : HashOutput :=
  H.digest [[nodePrefix], left.asBytes, right.asBytes]

/-- A hash small enough to be evaluated: the input as a number modulo a prime, in
little-endian bytes. -/
def residueHasher : Hasher where
  digest parts :=
    let residue := parts.flatten.foldl (fun acc b => (257 * acc + b.toNat + 1) % 65521) 0
    ⟨(List.range 32).map (fun i => UInt8.ofNat (residue / 256 ^ i)), by simp⟩

end Mtc
