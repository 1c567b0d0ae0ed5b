import MtcCa.Cloud.ReplicatedKv

/-! Request failures and the problem documents they are rendered as
(`crates/acme-core/src/error.rs`, `crates/acme-core/src/problem.rs`). -/
namespace Acme

open Cloud (debug)

/-- The one signature algorithm the server accepts. -/
def es256 : String := "ES256"

inductive AcmeError where
  | badNonce
  | badSignatureAlgorithm (alg : String)
  | malformed (reason : String)
  | accountDoesNotExist
  | urlMismatch
  | badPublicKey (reason : String)
  | internal (reason : String)
deriving DecidableEq

def AcmeError.toString : AcmeError → String
  | .badNonce => "bad anti-replay nonce"
  | .badSignatureAlgorithm alg => "unsupported JWS signature algorithm " ++ debug alg
  | .malformed reason => "malformed request: " ++ reason
  | .accountDoesNotExist => "no account exists with the provided key"
  | .urlMismatch => "JWS url does not match the request URL"
  | .badPublicKey reason => "unusable account public key: " ++ reason
  | .internal reason => "internal server error: " ++ reason

inductive ProblemType where
  | badNonce
  | badSignatureAlgorithm
  | malformed
  | accountDoesNotExist
  | unauthorized
  | badPublicKey
  | serverInternal
deriving DecidableEq

namespace ProblemType

def urn : ProblemType → String
  | .badNonce => "urn:ietf:params:acme:error:badNonce"
  | .badSignatureAlgorithm => "urn:ietf:params:acme:error:badSignatureAlgorithm"
  | .malformed => "urn:ietf:params:acme:error:malformed"
  | .accountDoesNotExist => "urn:ietf:params:acme:error:accountDoesNotExist"
  | .unauthorized => "urn:ietf:params:acme:error:unauthorized"
  | .badPublicKey => "urn:ietf:params:acme:error:badPublicKey"
  | .serverInternal => "urn:ietf:params:acme:error:serverInternal"

def status : ProblemType → ℕ
  | .badNonce | .badSignatureAlgorithm | .malformed | .accountDoesNotExist | .badPublicKey => 400
  | .unauthorized => 401
  | .serverInternal => 500

end ProblemType

structure ProblemDocument where
  problemType : String
  detail : String
  status : ℕ
  algorithms : Option (List String)
deriving DecidableEq

def ProblemDocument.new (problemType : ProblemType) (detail : String) : ProblemDocument :=
  ⟨problemType.urn, detail, problemType.status, none⟩

def ProblemDocument.withAlgorithms (doc : ProblemDocument) (algorithms : List String) :
    ProblemDocument :=
  { doc with algorithms := some algorithms }

/-- The problem document an error renders as. -/
def AcmeError.problem (e : AcmeError) : ProblemDocument :=
  match e with
  | .badNonce => .new .badNonce e.toString
  | .badSignatureAlgorithm _ =>
    (ProblemDocument.new .badSignatureAlgorithm e.toString).withAlgorithms [es256]
  | .malformed _ => .new .malformed e.toString
  | .accountDoesNotExist => .new .accountDoesNotExist e.toString
  | .urlMismatch => .new .unauthorized e.toString
  | .badPublicKey _ => .new .badPublicKey e.toString
  -- internal details are not echoed to clients
  | .internal _ => .new .serverInternal "internal server error"

/-- The document type tells a spent nonce from every other failure. -/
theorem AcmeError.problemType_eq_badNonce_iff {e : AcmeError} :
    e.problem.problemType = ProblemType.badNonce.urn ↔ e = .badNonce := by
  cases e <;> simp [AcmeError.problem, ProblemDocument.new, ProblemDocument.withAlgorithms,
    ProblemType.urn]

/-- Every problem is an error of the request or of the server. -/
theorem AcmeError.status_problem (e : AcmeError) :
    e.problem.status = 400 ∨ e.problem.status = 401 ∨ e.problem.status = 500 := by
  cases e <;> simp [AcmeError.problem, ProblemDocument.new, ProblemDocument.withAlgorithms,
    ProblemType.status]

end Acme
