import MtcCa.Wire.Codec

/-! The claims of a log entry (`crates/mtc/src/log_entry/claim.rs`,
`crates/mtc/src/log_entry/error.rs`). The variants of `Claim` are public and take any list;
the checked constructors and the parser reject an empty one. -/
namespace Mtc

inductive EntryError where
  | emptyDnsName
  | dnsNameTooLong (actual : ℕ)
  | emptyClaimList
deriving DecidableEq

/-- A DNS name of 1 to 255 bytes. -/
structure DnsName where
  bytes : List UInt8
  ne_nil : bytes ≠ []
  length_le : bytes.length ≤ 255
deriving DecidableEq

namespace DnsName

def maxLen : ℕ := 255

def new (bytes : List UInt8) : Except EntryError DnsName :=
  if hnil : bytes = [] then .error .emptyDnsName
  else if hlen : bytes.length ≤ maxLen then .ok ⟨bytes, hnil, hlen⟩
  else .error (.dnsNameTooLong bytes.length)

instance : TlsSerialize DnsName := ⟨fun name => writeOpaqueU8 name.bytes⟩

instance : TlsParse DnsName where
  tlsParse reader := do
    let (bytes, reader) ← reader.readOpaqueU8
    match new bytes with
    | .ok name => .ok (name, reader)
    | .error _ => .error (.invalidValue reader.position "DNSName must be 1..=255 bytes")

end DnsName

inductive ClaimType where
  | dns
  | dnsWildcard
  | ipv4
  | ipv6
deriving DecidableEq

namespace ClaimType

def code : ClaimType → UInt16
  | dns => 0
  | dnsWildcard => 1
  | ipv4 => 2
  | ipv6 => 3

def fromCode (code : UInt16) : Option ClaimType :=
  if code = 0 then some dns
  else if code = 1 then some dnsWildcard
  else if code = 2 then some ipv4
  else if code = 3 then some ipv6
  else none

end ClaimType

structure Ipv4Addr where
  octets : Bytes 4
deriving DecidableEq

structure Ipv6Addr where
  octets : Bytes 16
deriving DecidableEq

/-- Identifiers of one claim type. -/
inductive Claim where
  | dns (names : List DnsName)
  | dnsWildcard (names : List DnsName)
  | ipv4 (addresses : List Ipv4Addr)
  | ipv6 (addresses : List Ipv6Addr)
deriving DecidableEq

def nonEmpty {α : Type} (items : List α) : Except EntryError (List α) :=
  if items = [] then .error .emptyClaimList else .ok items

def nonEmptyWire {α : Type} (items : List α) (sub : TlsReader) : Except WireError (List α) :=
  if items = [] then
    .error (.invalidValue sub.position "claim value list must contain at least one entry")
  else .ok items

/-- A non-empty list of names. -/
def parseNameList (sub : TlsReader) : Except WireError (List DnsName × TlsReader) := do
  let (items, sub) ← sub.readVectorU16
  let names ← nonEmptyWire items sub
  .ok (names, sub)

namespace Claim

/-- The checked constructors. -/
def newDns (names : List DnsName) : Except EntryError Claim := do
  let names ← nonEmpty names
  .ok (dns names)

def newDnsWildcard (names : List DnsName) : Except EntryError Claim := do
  let names ← nonEmpty names
  .ok (dnsWildcard names)

def newIpv4 (addresses : List Ipv4Addr) : Except EntryError Claim := do
  let addresses ← nonEmpty addresses
  .ok (ipv4 addresses)

def newIpv6 (addresses : List Ipv6Addr) : Except EntryError Claim := do
  let addresses ← nonEmpty addresses
  .ok (ipv6 addresses)

def claimType : Claim → ClaimType
  | dns _ => .dns
  | dnsWildcard _ => .dnsWildcard
  | ipv4 _ => .ipv4
  | ipv6 _ => .ipv6

/-- The inner list alone. -/
def serializeClaimInfo : Claim → Except WriteError (List UInt8)
  | dns names => writeVectorU16 names
  | dnsWildcard names => writeVectorU16 names
  | ipv4 addresses => writeVectorU16 (addresses.map Ipv4Addr.octets)
  | ipv6 addresses => writeVectorU16 (addresses.map Ipv6Addr.octets)

instance : TlsSerialize Claim where
  tlsSerialize claim := do
    let code ← writeU16 claim.claimType.code
    let body ← claim.serializeClaimInfo
    let info ← writeOpaqueU16 body
    .ok (code ++ info)

/-- The list inside `claim_info`, by claim type. -/
def parseClaimInfo (claimType : ClaimType) (sub : TlsReader) :
    Except WireError (Claim × TlsReader) :=
  match claimType with
  | .dns => do
    let (names, sub) ← parseNameList sub
    .ok (dns names, sub)
  | .dnsWildcard => do
    let (names, sub) ← parseNameList sub
    .ok (dnsWildcard names, sub)
  | .ipv4 => do
    let (items, sub) ← sub.readVectorU16
    let raw ← nonEmptyWire items sub
    .ok (ipv4 (raw.map Ipv4Addr.mk), sub)
  | .ipv6 => do
    let (items, sub) ← sub.readVectorU16
    let raw ← nonEmptyWire items sub
    .ok (ipv6 (raw.map Ipv6Addr.mk), sub)

/-- The list is parsed by a fresh reader of the body, whose offsets start at zero again. -/
instance : TlsParse Claim where
  tlsParse reader := do
    let (code, reader) ← reader.readU16
    match ClaimType.fromCode code with
    | none => .error (.invalidValue reader.position "unknown ClaimType codepoint")
    | some claimType =>
      let (body, reader) ← reader.readOpaqueU16
      let (claim, sub) ← parseClaimInfo claimType (TlsReader.new body)
      sub.finish
      .ok (claim, reader)

end Claim

end Mtc
