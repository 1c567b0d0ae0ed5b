import MtcCa.Acme.Account

/-! The three routes and the layer that stamps a fresh nonce on every response
(`crates/acme-core/src/routes.rs`). `newAccount` is also given in its two parts, before and
after the nonce registry is released, since other requests may run in between. -/
namespace Acme

open Cloud (SystemTime debug)

def directoryPath : String := "/acme/directory"

def newNoncePath : String := "/acme/new-nonce"

def newAccountPath : String := "/acme/new-account"

def accountPathPrefix : String := "/acme/acct/"

def joseJson : String := "application/jose+json"

/-- The externally visible base URL, without trailing slashes. -/
structure BaseUrl where
  str : String
deriving DecidableEq

def BaseUrl.new (url : String) : BaseUrl :=
  ⟨.ofList (url.toList.rdropWhile (· = '/'))⟩

def BaseUrl.join (base : BaseUrl) (path : String) : String := base.str ++ path

inductive Method where
  | head
  | get
deriving DecidableEq

/-- A request; `contentType` is the header's value where it reads as text. -/
inductive Request where
  | directory
  | newNonce (method : Method)
  | newAccount (contentType : Option String) (body : List UInt8)
deriving DecidableEq

structure AccountResource where
  status : AccountStatus
  contact : List String
  termsOfServiceAgreed : Bool
deriving DecidableEq

def AccountResource.of (account : Account) : AccountResource :=
  ⟨account.status, account.contact, account.termsOfServiceAgreed⟩

inductive Body where
  | empty
  | directory (newNonce newAccount website : String)
  | account (resource : AccountResource)
  | problem (doc : ProblemDocument)
deriving DecidableEq

structure Response where
  status : ℕ
  cacheControl : Option String
  location : Option String
  replayNonce : Option Nonce
  body : Body
deriving DecidableEq

/-- An error as a response. -/
def AcmeError.response (e : AcmeError) : Response :=
  ⟨e.problem.status, none, none, none, .problem e.problem⟩

/-- What a handler returns, as a response. -/
def intoResponse : Except AcmeError Response → Response
  | .ok response => response
  | .error e => e.response

structure AcmeState where
  baseUrl : BaseUrl
  nonces : NonceStore
  accounts : AccountStore

namespace AcmeState

def withNonceTtl (baseUrl : BaseUrl) (ttlMillis : UInt64) : AcmeState :=
  ⟨baseUrl, .new ttlMillis, .new⟩

variable (L : Libraries) (state : AcmeState)

def urlFor (path : String) : String := state.baseUrl.join path

def freshNonce (now : SystemTime) (drawn : Except String Nonce) :
    Except AcmeError Nonce × AcmeState :=
  let r := state.nonces.issue now drawn
  (r.1, { state with nonces := r.2 })

def consumeNonce (nonce : Nonce) (now : SystemTime) : Except AcmeError Unit × AcmeState :=
  let r := state.nonces.consume nonce now
  (r.1, { state with nonces := r.2 })

/-- Stamps a fresh nonce on a response; without one the response is a server error. -/
def attachReplayNonce (response : Response) (now : SystemTime) (drawn : Except String Nonce) :
    Response × AcmeState :=
  match state.freshNonce now drawn with
  | (.ok nonce, state) =>
    (if L.isHeaderValue nonce.str then { response with replayNonce := some nonce } else response,
      state)
  | (.error e, state) => (e.response, state)

def directory : Response where
  status := 200
  cacheControl := none
  location := none
  replayNonce := none
  body := .directory (state.urlFor newNoncePath) (state.urlFor newAccountPath)
    "https://github.com/SpainTrain/open-private-mtc-ca"

end AcmeState

def newNonce (method : Method) : Response where
  status := if method = .head then 200 else 204
  cacheControl := some "no-store"
  location := none
  replayNonce := none
  body := .empty

/-- The media type of a header value: what stands before the first `;`, trimmed. -/
def mediaType (contentType : String) : List Char :=
  ((contentType.toList.takeWhile (· ≠ ';')).dropWhile (·.isWhitespace)).rdropWhile (·.isWhitespace)

def requireJoseJson (contentType : Option String) : Except AcmeError Unit :=
  let contentType := contentType.getD ""
  if (mediaType contentType).map Char.toLower = joseJson.toList.map Char.toLower then .ok ()
  else .error (.malformed ("content-type must be " ++ joseJson ++ ", got " ++ debug contentType))

section newAccount

variable (L : Libraries)

/-- The part before the nonce check: the parsed body and the nonce it presents. -/
def presentation (contentType : Option String) (body : List UInt8) :
    Except AcmeError (Jws × Nonce) := do
  requireJoseJson contentType
  let jws ← Jws.parse L body
  jws.checkAlg
  let nonce ← jws.nonce
  .ok (jws, nonce)

/-- The inline key of the request; an account URL will not do. -/
def inlineKey (jws : Jws) : Except AcmeError Jwk := do
  match ← jws.accountKey with
  | .jwk jwk => .ok jwk
  | .kid _ => .error (.malformed "new-account requires \"jwk\", not \"kid\"")

/-- The checks between the nonce check and the account store: the key that signed the body and
what it asks for. -/
def authenticate (url : String) (jws : Jws) : Except AcmeError (Jwk × NewAccountRequest) := do
  jws.checkUrl url
  let jwk ← inlineKey jws
  let key ← jwk.verifyingKey L
  jws.verifySignature L key
  let request ← (L.parseRequest jws.payload).mapError
    (fun e => .malformed ("invalid new-account payload: " ++ e))
  .ok (jwk, request)

def AcmeState.accountUrl (state : AcmeState) (id : AccountId) : String :=
  state.urlFor (accountPathPrefix ++ toString id.val)

/-- The response for an account, new or not. -/
def AcmeState.accountResponse (state : AcmeState) (account : Account) (created : Bool) :
    Except AcmeError Response :=
  let location := state.accountUrl account.id
  if L.isHeaderValue location then
    .ok {
      status := if created then 201 else 200
      cacheControl := none
      location := some location
      replayNonce := none
      body := .account (.of account) }
  else .error (.internal "account URL is not a valid header value")

/-- The part after the nonce check. -/
def AcmeState.admitted (state : AcmeState) (jws : Jws) : Except AcmeError Response × AcmeState :=
  match authenticate L (state.urlFor newAccountPath) jws with
  | .error e => (.error e, state)
  | .ok (jwk, request) =>
    match state.accounts.register L jwk request with
    | (.error e, accounts) => (.error e, { state with accounts := accounts })
    | (.ok (account, created), accounts) =>
      (state.accountResponse L account created, { state with accounts := accounts })

/-- The whole handler, with nothing in between. -/
def newAccount (state : AcmeState) (now : SystemTime) (contentType : Option String)
    (body : List UInt8) : Except AcmeError Response × AcmeState :=
  match presentation L contentType body with
  | .error e => (.error e, state)
  | .ok (jws, nonce) =>
    match state.consumeNonce nonce now with
    | (.error e, state) => (.error e, state)
    | (.ok (), state) => state.admitted L jws

end newAccount

end Acme
