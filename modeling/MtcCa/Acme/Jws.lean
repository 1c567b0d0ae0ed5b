import MtcCa.Lib.Outcome
import MtcCa.Acme.Nonce

/-! Signed request bodies and their checks (`crates/acme-core/src/jws.rs`). What the code takes
from the libraries below it is a parameter. -/
namespace Acme

open Cloud (debug)

structure JwkThumbprint where
  str : String
deriving DecidableEq

/-- A public key as it travels; nothing is checked yet. -/
structure Jwk where
  kty : String
  crv : String
  x : String
  y : String
deriving DecidableEq

structure ProtectedHeader where
  alg : String
  nonce : Option String
  url : Option String
  jwk : Option Jwk
  kid : Option String
deriving DecidableEq

/-- The envelope as the JSON of a request body gives it. -/
structure FlattenedJws where
  protectedB64 : String
  payload : String
  signature : String
deriving DecidableEq

/-- The payload of a new-account request. -/
structure NewAccountRequest where
  contact : List String
  termsOfServiceAgreed : Bool
  onlyReturnExisting : Bool
deriving DecidableEq

/-- A parsed, not yet verified request body. -/
structure Jws where
  header : ProtectedHeader
  payload : List UInt8
  signature : List UInt8
  protectedB64 : String
  payloadB64 : String
deriving DecidableEq

inductive AccountKeySource where
  | jwk (jwk : Jwk)
  | kid (kid : String)
deriving DecidableEq

/-- The library calls: unpadded base64url, SHA-256 of a string's bytes, P-256 points and ES256
signatures, the three JSON decoders with the texts of their errors, and the test for a string
that may stand in a header. -/
structure Libraries where
  VerifyingKey : Type
  Signature : Type
  decodeBase64 : String → Option (List UInt8)
  encodeBase64 : List UInt8 → String
  sha256 : String → List UInt8
  fromAffineCoordinates : List UInt8 → List UInt8 → Option VerifyingKey
  signatureFromSlice : List UInt8 → Option Signature
  verify : VerifyingKey → String → Signature → Bool
  parseFlattened : List UInt8 → Except String FlattenedJws
  parseHeader : List UInt8 → Except String ProtectedHeader
  parseRequest : List UInt8 → Except String NewAccountRequest
  isHeaderValue : String → Bool

/-- The escape of one character inside a JSON string. -/
def escapeJson (c : Char) : List Char :=
  if c = '"' then ['\\', '"']
  else if c = '\\' then ['\\', '\\']
  else if c = '\x08' then ['\\', 'b']
  else if c = '\x0c' then ['\\', 'f']
  else if c = '\n' then ['\\', 'n']
  else if c = '\r' then ['\\', 'r']
  else if c = '\t' then ['\\', 't']
  else if c.toNat < 0x20 then
    ['\\', 'u', '0', '0', Nat.digitChar (c.toNat / 16), Nat.digitChar (c.toNat % 16)]
  else [c]

/-- A string as a JSON value. -/
def jsonString (s : String) : List Char := '"' :: s.toList.flatMap escapeJson ++ ['"']

namespace Jwk

/-- The JSON of the four members in key order, without blanks. -/
def canonical (jwk : Jwk) : String :=
  .ofList ("\x7b\"crv\":".toList ++ (jsonString jwk.crv ++ (",\"kty\":".toList ++
    (jsonString jwk.kty ++ (",\"x\":".toList ++ (jsonString jwk.x ++ (",\"y\":".toList ++
      (jsonString jwk.y ++ "\x7d".toList))))))))

variable (L : Libraries)

def thumbprint (jwk : Jwk) : JwkThumbprint := ⟨L.encodeBase64 (L.sha256 jwk.canonical)⟩

def decodeCoordinate (name value : String) : Except AcmeError (List UInt8) :=
  match L.decodeBase64 value with
  | none => .error (.badPublicKey ("coordinate " ++ name ++ ": invalid base64url"))
  | some bytes =>
    if bytes.length = 32 then .ok bytes
    else .error (.badPublicKey ("coordinate " ++ name ++ ": expected 32 bytes"))

def verifyingKey (jwk : Jwk) : Except AcmeError L.VerifyingKey :=
  if jwk.kty ≠ "EC" then
    .error (.badPublicKey ("unsupported kty " ++ debug jwk.kty ++ " (need \"EC\")"))
  else if jwk.crv ≠ "P-256" then
    .error (.badPublicKey ("unsupported crv " ++ debug jwk.crv ++ " (need \"P-256\")"))
  else do
    let x ← decodeCoordinate L "x" jwk.x
    let y ← decodeCoordinate L "y" jwk.y
    match L.fromAffineCoordinates x y with
    | some key => .ok key
    | none => .error (.badPublicKey "coordinates are not a P-256 point")

end Jwk

namespace Jws

def parse (L : Libraries) (body : List UInt8) : Except AcmeError Jws := do
  let flat ← (L.parseFlattened body).mapError
    (fun e => .malformed ("invalid JWS request body: " ++ e))
  let protectedBytes ← (L.decodeBase64 flat.protectedB64).elim
    (.error (.malformed "protected: invalid base64url")) .ok
  let header ← (L.parseHeader protectedBytes).mapError
    (fun e => .malformed ("invalid protected header: " ++ e))
  let payload ← (L.decodeBase64 flat.payload).elim
    (.error (.malformed "payload: invalid base64url")) .ok
  let signature ← (L.decodeBase64 flat.signature).elim
    (.error (.malformed "signature: invalid base64url")) .ok
  .ok ⟨header, payload, signature, flat.protectedB64, flat.payload⟩

variable (jws : Jws)

def checkAlg : Except AcmeError Unit :=
  if jws.header.alg = es256 then .ok () else .error (.badSignatureAlgorithm jws.header.alg)

/-- The nonce of the request; an empty one counts as absent. -/
def nonce : Except AcmeError Nonce :=
  match jws.header.nonce.filter (fun n => !n.isEmpty) with
  | some n => .ok ⟨n⟩
  | none => .error .badNonce

def checkUrl (expected : String) : Except AcmeError Unit :=
  match jws.header.url with
  | none => .error (.malformed "protected header missing \"url\"")
  | some url => if url = expected then .ok () else .error .urlMismatch

def accountKey : Except AcmeError AccountKeySource :=
  match jws.header.jwk, jws.header.kid with
  | some jwk, none => .ok (.jwk jwk)
  | none, some kid => .ok (.kid kid)
  | _, _ => .error (.malformed
      "protected header must contain exactly one of \"jwk\" or \"kid\"")

/-- What the signature is over. -/
def signingInput : String := jws.protectedB64 ++ "." ++ jws.payloadB64

def verifySignature (L : Libraries) (key : L.VerifyingKey) : Except AcmeError Unit :=
  match L.signatureFromSlice jws.signature with
  | none => .error (.malformed "signature: expected 64-byte ES256 (r || s)")
  | some signature =>
    if L.verify key jws.signingInput signature then .ok ()
    else .error (.malformed "JWS signature verification failed")

end Jws

end Acme
