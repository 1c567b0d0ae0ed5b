import MtcCa.Acme.Routes
import MtcCa.Lib.Transition

/-! Requests in flight: each takes its steps under the locks one at a time, in any order with
the others. The clock does not go backwards and the generator draws no nonce twice. -/
namespace Acme

open Cloud (SystemTime)

/-- How far a request has come. -/
inductive Stage where
  | received
  | admitted (jws : Jws)
  | handled (result : Except AcmeError Response)
  | answered (result : Except AcmeError Response) (response : Response)

structure Task where
  request : Request
  stage : Stage

/-- What happened to the nonces. -/
inductive Event where
  | issued (nonce : Nonce) (now : SystemTime)
  | presented (task : ℕ) (nonce : Nonce) (now : SystemTime) (passed : Bool)
deriving DecidableEq

/-- The server, its requests, the last clock reading and what happened, latest first. -/
structure Server where
  state : AcmeState
  tasks : ℕ → Option Task
  clock : SystemTime
  log : List Event

inductive Action where
  | arrive (i : ℕ) (request : Request)
  | handle (i : ℕ)
  | present (i : ℕ) (now : SystemTime)
  | finish (i : ℕ)
  | reply (i : ℕ) (now : SystemTime) (drawn : Except String Nonce)

namespace Server

def start (baseUrl : BaseUrl) (ttlMillis : UInt64) (clock : SystemTime) : Server :=
  ⟨.withNonceTtl baseUrl ttlMillis, fun _ => none, clock, []⟩

def setTask (s : Server) (i : ℕ) (request : Request) (stage : Stage) : Server :=
  { s with tasks := Function.update s.tasks i (some ⟨request, stage⟩) }

/-- Request `i` presents `nonce`. -/
def present (s : Server) (i : ℕ) (request : Request) (jws : Jws) (nonce : Nonce)
    (now : SystemTime) : Server :=
  let r := s.state.consumeNonce nonce now
  match r.1 with
  | .ok () => {
      state := r.2
      tasks := Function.update s.tasks i (some ⟨request, .admitted jws⟩)
      clock := now
      log := .presented i nonce now true :: s.log }
  | .error e => {
      state := r.2
      tasks := Function.update s.tasks i (some ⟨request, .handled (.error e)⟩)
      clock := now
      log := .presented i nonce now false :: s.log }

/-- Request `i`, its nonce spent, goes to the account store. -/
def finish (L : Libraries) (s : Server) (i : ℕ) (request : Request) (jws : Jws) : Server :=
  let r := s.state.admitted L jws
  { s with
    state := r.2
    tasks := Function.update s.tasks i (some ⟨request, .handled r.1⟩) }

/-- The answer to request `i` gets its nonce. -/
def reply (L : Libraries) (s : Server) (i : ℕ) (request : Request)
    (result : Except AcmeError Response) (now : SystemTime) (drawn : Except String Nonce) :
    Server :=
  let r := s.state.attachReplayNonce L (intoResponse result) now drawn
  { state := r.2
    tasks := Function.update s.tasks i (some ⟨request, .answered result r.1⟩)
    clock := now
    log := drawn.toOption.elim s.log (fun nonce => .issued nonce now :: s.log) }

/-- `nonce` has been drawn before. -/
def Drawn (s : Server) (nonce : Nonce) : Prop := ∃ t, .issued nonce t ∈ s.log

end Server

open Server

inductive Step (L : Libraries) (s : Server) : Action → Server → Prop where
  | arrive {i : ℕ} {request : Request} (hi : s.tasks i = none) :
      Step L s (.arrive i request) (s.setTask i request .received)
  | directory {i : ℕ} (hi : s.tasks i = some ⟨.directory, .received⟩) :
      Step L s (.handle i) (s.setTask i .directory (.handled (.ok s.state.directory)))
  | newNonce {i : ℕ} {method : Method} (hi : s.tasks i = some ⟨.newNonce method, .received⟩) :
      Step L s (.handle i)
        (s.setTask i (.newNonce method) (.handled (.ok (newNonce method))))
  | reject {i : ℕ} {contentType : Option String} {body : List UInt8} {e : AcmeError}
      (hi : s.tasks i = some ⟨.newAccount contentType body, .received⟩)
      (he : presentation L contentType body = .error e) :
      Step L s (.handle i) (s.setTask i (.newAccount contentType body) (.handled (.error e)))
  | present {i : ℕ} {contentType : Option String} {body : List UInt8} {jws : Jws} {nonce : Nonce}
      {now : SystemTime} (hi : s.tasks i = some ⟨.newAccount contentType body, .received⟩)
      (hp : presentation L contentType body = .ok (jws, nonce)) (hclock : s.clock ≤ now) :
      Step L s (.present i now) (s.present i (.newAccount contentType body) jws nonce now)
  | finish {i : ℕ} {request : Request} {jws : Jws}
      (hi : s.tasks i = some ⟨request, .admitted jws⟩) :
      Step L s (.finish i) (s.finish L i request jws)
  | reply {i : ℕ} {request : Request} {result : Except AcmeError Response} {now : SystemTime}
      {drawn : Except String Nonce} (hi : s.tasks i = some ⟨request, .handled result⟩)
      (hclock : s.clock ≤ now) (hfresh : ∀ nonce, drawn = .ok nonce → ¬ s.Drawn nonce) :
      Step L s (.reply i now drawn) (s.reply L i request result now drawn)

/-- The runs of the server. -/
abbrev Run (L : Libraries) (s : Server) (actions : List Action) (t : Server) : Prop :=
  Transition.Trace (Step L) s actions t

end Acme
