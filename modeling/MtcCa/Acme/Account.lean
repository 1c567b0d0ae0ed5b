import MtcCa.Acme.Jws

/-! Accounts and their two indexes (`crates/acme-core/src/account.rs`). -/
namespace Acme

/-- The number of an account. The accounts are held in memory, and none has a number beyond how
many they are, so that the `u64` of the source does not wrap. -/
structure AccountId where
  val : ℕ
deriving DecidableEq

inductive AccountStatus where
  | valid
deriving DecidableEq

structure Account where
  id : AccountId
  key : Jwk
  thumbprint : JwkThumbprint
  status : AccountStatus
  contact : List String
  termsOfServiceAgreed : Bool
deriving DecidableEq

structure AccountStore where
  nextId : ℕ
  byThumbprint : FiniteMap JwkThumbprint Account
  idIndex : FiniteMap AccountId JwkThumbprint

namespace AccountStore

variable (L : Libraries)

def new : AccountStore := ⟨1, .empty, .empty⟩

def findByThumbprint (accounts : AccountStore) (thumbprint : JwkThumbprint) : Option Account :=
  accounts.byThumbprint.get? thumbprint

def findById (accounts : AccountStore) (id : AccountId) : Option Account :=
  (accounts.idIndex.get? id).bind accounts.byThumbprint.get?

/-- The account of `key`, created if there is none; `true` when it was created. -/
def getOrCreate (accounts : AccountStore) (key : Jwk) (request : NewAccountRequest) :
    (Account × Bool) × AccountStore :=
  let thumbprint := key.thumbprint L
  match accounts.byThumbprint.get? thumbprint with
  | some existing => ((existing, false), accounts)
  | none =>
    let account := {
      id := ⟨accounts.nextId⟩
      key := key
      thumbprint := thumbprint
      status := .valid
      contact := request.contact
      termsOfServiceAgreed := request.termsOfServiceAgreed }
    ((account, true), {
      nextId := accounts.nextId + 1
      byThumbprint := accounts.byThumbprint.insert thumbprint account
      idIndex := accounts.idIndex.insert account.id thumbprint })

def len (accounts : AccountStore) : ℕ := accounts.byThumbprint.keys.card

/-- What a new-account request does under the account lock. -/
def register (accounts : AccountStore) (jwk : Jwk) (request : NewAccountRequest) :
    Except AcmeError (Account × Bool) × AccountStore :=
  match accounts.findByThumbprint (jwk.thumbprint L) with
  | some existing => (.ok (existing, false), accounts)
  | none =>
    if request.onlyReturnExisting then (.error .accountDoesNotExist, accounts)
    else
      let r := accounts.getOrCreate L jwk request
      (.ok r.1, r.2)

end AccountStore

end Acme
