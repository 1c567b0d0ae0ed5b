import MtcCa.Acme.AccountIndex
import MtcCa.Acme.AntiReplay
import MtcCa.Acme.Thumbprint

/-! Accounts are keys, in every run of the server. -/
namespace Acme

open Cloud (SystemTime)

variable {L : Libraries} {signed : L.VerifyingKey → String → Prop} {s t : Server} {act : Action}
variable {as : List Action} {state : AcmeState} {jws : Jws} {jwk : Jwk} {asked : NewAccountRequest}
variable {i : ℕ} {a : Account} {tp : JwkThumbprint} {contentType : Option String}
variable {body : List UInt8} {response : Response} {url : String} {ttl : UInt64}
variable {baseUrl : BaseUrl} {clock : SystemTime}

/-- `body` is signed, inline, by `key` with the JWK `jwk`. -/
def SignedBy (L : Libraries) (body : List UInt8) (jwk : Jwk) (key : L.VerifyingKey) : Prop :=
  ∃ jws signature, Jws.parse L body = .ok jws ∧ jws.header.jwk = some jwk ∧
    jws.header.kid = none ∧ jwk.verifyingKey L = .ok key ∧
    L.signatureFromSlice jws.signature = some signature ∧ L.verify key jws.signingInput signature

/-- Request `i` was accepted with `response`. -/
def Server.Granted (s : Server) (i : ℕ) (request : Request) (response : Response) : Prop :=
  s.tasks i = some ⟨request, .handled (.ok response)⟩ ∨
    ∃ sent, s.tasks i = some ⟨request, .answered (.ok response) sent⟩

/-- The response is about this account. -/
def Response.For (response : Response) (state : AcmeState) (a : Account) : Prop :=
  response.location = some (state.accountUrl a.id) ∧ response.body = .account (.of a)

theorem inlineKey_eq_ok (h : inlineKey jws = .ok jwk) :
    jws.header.jwk = some jwk ∧ jws.header.kid = none := by
  obtain ⟨source, hkey, hsource⟩ := Outcome.bind_eq_ok_iff.mp h
  unfold Jws.accountKey at hkey
  split at hkey
  · next hjwk hkid =>
    cases hkey
    cases hsource
    exact ⟨hjwk, hkid⟩
  · cases hkey
    cases hsource
  · cases hkey

theorem checkUrl_eq_ok (h : jws.checkUrl url = .ok ()) : jws.header.url = some url := by
  unfold Jws.checkUrl at h
  split at h
  · cases h
  · next heq =>
    split at h
    · next hurl => rw [heq, hurl]
    · cases h

theorem verifySignature_eq_ok {key : L.VerifyingKey} (h : jws.verifySignature L key = .ok ()) :
    ∃ signature, L.signatureFromSlice jws.signature = some signature ∧
      L.verify key jws.signingInput signature := by
  unfold Jws.verifySignature at h
  split at h
  · cases h
  · next signature heq =>
    split at h
    · next hverify => exact ⟨signature, heq, hverify⟩
    · cases h

/-- What passes every check after the nonce's. -/
theorem authenticate_eq_ok (h : authenticate L url jws = .ok (jwk, asked))
    (hparse : Jws.parse L body = .ok jws) : jws.header.url = some url ∧
      L.parseRequest jws.payload = .ok asked ∧ ∃ key, SignedBy L body jwk key := by
  obtain ⟨_, hurl, h⟩ := Outcome.bind_eq_ok_iff.mp h
  obtain ⟨jwk', hinline, h⟩ := Outcome.bind_eq_ok_iff.mp h
  obtain ⟨key, hkey, h⟩ := Outcome.bind_eq_ok_iff.mp h
  obtain ⟨_, hsignature, h⟩ := Outcome.bind_eq_ok_iff.mp h
  obtain ⟨asked', hasked, h⟩ := Outcome.bind_eq_ok_iff.mp h
  cases h
  obtain ⟨hjwk, hkid⟩ := inlineKey_eq_ok hinline
  obtain ⟨signature, hslice, hverify⟩ := verifySignature_eq_ok hsignature
  exact ⟨checkUrl_eq_ok hurl, Outcome.mapError_eq_ok_iff.mp hasked, key, jws, signature, hparse,
    hjwk, hkid, hkey, hslice, hverify⟩

theorem accountResponse_eq_ok {created : Bool}
    (h : state.accountResponse L a created = .ok response) : response.For state a := by
  obtain ⟨-, h⟩ := Outcome.ite_else_error_eq_ok_iff.mp h
  cases h
  exact ⟨rfl, rfl⟩

/-- The part of the handler after the nonce check, in four cases. -/
theorem admitted_cases (L : Libraries) (state : AcmeState) (jws : Jws) :
    (∃ e, authenticate L (state.urlFor newAccountPath) jws = .error e ∧
      state.admitted L jws = (.error e, state)) ∨
    ∃ jwk asked, authenticate L (state.urlFor newAccountPath) jws = .ok (jwk, asked) ∧
      ((∃ a, state.accounts.findByThumbprint (jwk.thumbprint L) = some a ∧
        state.admitted L jws = (state.accountResponse L a false, state)) ∨
      (state.accounts.findByThumbprint (jwk.thumbprint L) = none ∧ asked.onlyReturnExisting ∧
        state.admitted L jws = (.error .accountDoesNotExist, state)) ∨
      (state.accounts.findByThumbprint (jwk.thumbprint L) = none ∧
        asked.onlyReturnExisting = false ∧
        state.admitted L jws =
          (state.accountResponse L (state.accounts.created L jwk asked) true,
            { state with accounts := state.accounts.withCreated L jwk asked }))) := by
  cases h : authenticate L (state.urlFor newAccountPath) jws with
  | error e =>
    refine .inl ⟨e, rfl, ?_⟩
    simp only [AcmeState.admitted, h]
  | ok checked =>
    obtain ⟨jwk, asked⟩ := checked
    refine .inr ⟨jwk, asked, rfl, ?_⟩
    rcases AccountStore.register_cases L state.accounts jwk asked with
      ⟨a, ha, hreg⟩ | ⟨hnone, honly, hreg⟩ | ⟨hnone, honly, hreg⟩
    · refine .inl ⟨a, ha, ?_⟩
      simp only [AcmeState.admitted, h, hreg]
    · refine .inr (.inl ⟨hnone, honly, ?_⟩)
      simp only [AcmeState.admitted, h, hreg]
    · refine .inr (.inr ⟨hnone, honly, ?_⟩)
      simp only [AcmeState.admitted, h, hreg]

/-- How request `i` comes to change the accounts from `s` to `t`: it is signed with ES256 for this
URL, its nonce passed the check, and it registers the key that signed it, which had no
account, under the next id. -/
def Registers (L : Libraries) (signed : L.VerifyingKey → String → Prop) (s t : Server) (i : ℕ) :
    Prop :=
  ∃ contentType body jws nonce now jwk key asked a,
    s.tasks i = some ⟨.newAccount contentType body, .admitted jws⟩ ∧
    Jws.parse L body = .ok jws ∧ jws.header.alg = es256 ∧
    jws.header.url = some (s.state.urlFor newAccountPath) ∧
    jws.nonce = .ok nonce ∧ .presented i nonce now true ∈ s.log ∧
    SignedBy L body jwk key ∧ signed key jws.signingInput ∧
    L.parseRequest jws.payload = .ok asked ∧ asked.onlyReturnExisting = false ∧
    s.state.accounts.findByThumbprint (jwk.thumbprint L) = none ∧
    a.key = jwk ∧ a.id = ⟨s.state.accounts.len + 1⟩ ∧
    ∀ tp, t.state.accounts.findByThumbprint tp =
      if tp = jwk.thumbprint L then some a else s.state.accounts.findByThumbprint tp

/-- Which accounts there are is decided by the keys that signed accepted requests. -/
structure Keyed (L : Libraries) (s : Server) : Prop where
  indexed : s.state.accounts.Indexed L
  granted : ∀ i contentType body response,
    s.Granted i (.newAccount contentType body) response → ∃ jwk key a, SignedBy L body jwk key ∧
      s.state.accounts.findByThumbprint (jwk.thumbprint L) = some a ∧ a.key = jwk ∧
        response.For s.state a

theorem Response.For.congr {state' : AcmeState} (h : response.For state a)
    (hbase : state'.baseUrl = state.baseUrl) : response.For state' a := by
  obtain ⟨hlocation, hbody⟩ := h
  refine ⟨?_, hbody⟩
  rw [hlocation]
  simp only [AcmeState.accountUrl, AcmeState.urlFor, hbase]

theorem baseUrl_admitted : (state.admitted L jws).2.baseUrl = state.baseUrl := by
  unfold AcmeState.admitted
  split
  · rfl
  · split <;> rfl

theorem baseUrl_step (h : Step L s act t) : t.state.baseUrl = s.state.baseUrl := by
  cases h with
  | arrive => rfl
  | directory => rfl
  | newNonce => rfl
  | reject => rfl
  | @present i contentType body jws n now hi hp hclock =>
    rcases NonceStore.consume_fst_eq_or s.state.nonces n now with hok | hbad
    · rw [Server.present_eq_passed hok]
    · rw [Server.present_eq_refused hbad]
  | finish => exact baseUrl_admitted
  | reply => rw [Server.reply_eq]

/-- A step registers an account or leaves the accounts as they were. -/
theorem Consistent.registers_step (hL : Assumptions L signed) (hs : Consistent L ttl s)
    (hindexed : s.state.accounts.Indexed L) (h : Step L s act t) :
    t.state.accounts = s.state.accounts ∨
      (∃ i, act = .finish i ∧ Registers L signed s t i) ∧ t.state.accounts.Indexed L := by
  rcases hs.accounts_step h with heq | ⟨i, n, now, rfl, hpassed⟩
  · exact .inl heq
  cases h with
  | @finish _ request jws hi =>
    have hadmitted := hs.task i
    rw [hi] at hadmitted
    obtain ⟨contentType, body, n', now', rfl, hp, ho⟩ := hadmitted
    obtain ⟨-, hparse, halg, hnonce⟩ := presentation_eq_ok hp
    change (s.state.admitted L jws).2.accounts = _ ∨
      (∃ j, _ ∧ Registers L signed s (s.finish L i (.newAccount contentType body) jws) j) ∧
        (s.state.admitted L jws).2.accounts.Indexed L
    rcases admitted_cases L s.state jws with ⟨e, -, heq⟩ |
      ⟨jwk, asked, hauth, ⟨a, -, heq⟩ | ⟨-, -, heq⟩ | ⟨hnone, honly, heq⟩⟩
    · exact .inl (by rw [heq])
    · exact .inl (by rw [heq])
    · exact .inl (by rw [heq])
    right
    rw [heq]
    refine ⟨⟨i, rfl, ?_⟩, hindexed.withCreated hnone⟩
    obtain ⟨hurl, hasked, key, hsigned⟩ := authenticate_eq_ok hauth hparse
    have hholder : signed key jws.signingInput := by
      obtain ⟨jws', signature, hparse', -, -, -, -, hverify⟩ := hsigned
      rw [hparse] at hparse'
      cases hparse'
      exact hL.es256_sound _ _ _ hverify
    have halg' : jws.header.alg = es256 := (Outcome.ite_else_error_eq_ok_iff.mp halg).1
    refine ⟨contentType, body, jws, n', now', jwk, key, asked, s.state.accounts.created L jwk asked,
      hi, hparse, halg', hurl, hnonce, (ho _ _ _).mpr ⟨rfl, rfl, rfl⟩, hsigned, hholder, hasked,
      honly, hnone, rfl, ?_, ?_⟩
    · rw [← hindexed.count]
      rfl
    · intro tp
      change (s.state.admitted L jws).2.accounts.findByThumbprint tp = _
      rw [heq]
      exact AccountStore.find_withCreated

/-- Accounts stay as they are. -/
theorem Consistent.find_step (hL : Assumptions L signed) (hs : Consistent L ttl s)
    (hindexed : s.state.accounts.Indexed L) (h : Step L s act t)
    (hfind : s.state.accounts.findByThumbprint tp = some a) :
    t.state.accounts.findByThumbprint tp = some a := by
  rcases hs.registers_step hL hindexed h with heq | ⟨⟨i, -, hreg⟩, -⟩
  · rw [heq, hfind]
  · obtain ⟨_, _, _, _, _, jwk, _, _, _, _, _, _, _, _, _, _, _, _, _, hnone, _, _, hstore⟩ := hreg
    rw [hstore]
    split
    · next heq =>
      rw [heq, hnone] at hfind
      cases hfind
    · exact hfind

/-- After a step for request `j`, one was accepted before, or it is `j` and was accepted by it. -/
theorem granted_of_update {j : ℕ} {task : Option Task} {request : Request}
    (htasks : t.tasks = Function.update s.tasks j task) (hg : t.Granted i request response) :
    s.Granted i request response ∨ i = j ∧ (task = some ⟨request, .handled (.ok response)⟩ ∨
      ∃ sent, task = some ⟨request, .answered (.ok response) sent⟩) := by
  by_cases hij : i = j
  · subst hij
    have hsame : t.tasks i = task := by rw [htasks, Function.update_self]
    exact .inr ⟨rfl, by simpa only [Server.Granted, hsame] using hg⟩
  · have hsame : t.tasks i = s.tasks i := by rw [htasks, Function.update_of_ne hij]
    exact .inl (by simpa only [Server.Granted, hsame] using hg)

/-- Presenting a nonce admits the request or refuses it. -/
theorem tasks_present (j : ℕ) (request : Request) (jws : Jws) (n : Nonce) (now : SystemTime) :
    (s.present j request jws n now).tasks =
        Function.update s.tasks j (some ⟨request, .admitted jws⟩) ∨
      (s.present j request jws n now).tasks =
        Function.update s.tasks j (some ⟨request, .handled (.error .badNonce)⟩) := by
  rcases NonceStore.consume_fst_eq_or s.state.nonces n now with hok | hbad
  · rw [Server.present_eq_passed hok]
    exact .inl rfl
  · rw [Server.present_eq_refused hbad]
    exact .inr rfl

/-- A request is accepted by the step that takes it to the account store. -/
theorem granted_step (h : Step L s act t)
    (hg : t.Granted i (.newAccount contentType body) response) :
    s.Granted i (.newAccount contentType body) response ∨ ∃ jws,
      s.tasks i = some ⟨.newAccount contentType body, .admitted jws⟩ ∧
        (s.state.admitted L jws).1 = .ok response ∧ t.state = (s.state.admitted L jws).2 := by
  cases h with
  | arrive hi =>
    rcases granted_of_update rfl hg with hs | ⟨rfl, h | ⟨_, h⟩⟩
    · exact .inl hs
    · cases h
    · cases h
  | directory hi =>
    rcases granted_of_update rfl hg with hs | ⟨rfl, h | ⟨_, h⟩⟩
    · exact .inl hs
    · cases h
    · cases h
  | newNonce hi =>
    rcases granted_of_update rfl hg with hs | ⟨rfl, h | ⟨_, h⟩⟩
    · exact .inl hs
    · cases h
    · cases h
  | reject hi he =>
    rcases granted_of_update rfl hg with hs | ⟨rfl, h | ⟨_, h⟩⟩
    · exact .inl hs
    · cases h
    · cases h
  | @present j contentType' body' jws n now hi hp hclock =>
    rcases tasks_present j (.newAccount contentType' body') jws n now with htasks | htasks
    all_goals
      rcases granted_of_update htasks hg with hs | ⟨rfl, h | ⟨_, h⟩⟩
      · exact .inl hs
      · cases h
      · cases h
  | @finish j request jws hi =>
    rcases granted_of_update rfl hg with hs | ⟨rfl, h | ⟨_, h⟩⟩
    · exact .inl hs
    · obtain ⟨hrequest, hstage⟩ := Task.mk.inj (Option.some.inj h)
      subst hrequest
      exact .inr ⟨jws, hi, Stage.handled.inj hstage, rfl⟩
    · cases h
  | @reply j request result now drawn hi hclock hfresh =>
    have htasks : (s.reply L j request result now drawn).tasks = Function.update s.tasks j
        (some ⟨request, .answered result (stamp L (intoResponse result) drawn)⟩) := by
      rw [Server.reply_eq]
    rcases granted_of_update htasks hg with hs | ⟨rfl, h | ⟨_, h⟩⟩
    · exact .inl hs
    · cases h
    · cases h
      exact .inl (.inl hi)

theorem keyed_start : Keyed L (.start baseUrl ttl clock) where
  indexed := AccountStore.indexed_new
  granted := by
    rintro i contentType body response (h | ⟨sent, h⟩) <;> cases h

theorem keyed_step (hL : Assumptions L signed) (hs : Consistent L ttl s) (h : Step L s act t)
    (hk : Keyed L s) : Keyed L t where
  indexed := by
    rcases hs.registers_step hL hk.indexed h with heq | ⟨-, hindexed⟩
    · rw [heq]
      exact hk.indexed
    · exact hindexed
  granted := by
    intro i contentType body response hg
    rcases granted_step h hg with hg | ⟨jws, hi, hresponse, hstate⟩
    · obtain ⟨jwk, key, a, hsigned, hfind, hkey, hfor⟩ := hk.granted i contentType body response hg
      exact ⟨jwk, key, a, hsigned, hs.find_step hL hk.indexed h hfind, hkey,
        hfor.congr (baseUrl_step h)⟩
    · have hadmitted := hs.task i
      rw [hi] at hadmitted
      obtain ⟨_, _, n, now, hrequest, hp, -⟩ := hadmitted
      cases hrequest
      obtain ⟨-, hparse, -, -⟩ := presentation_eq_ok hp
      rw [hstate]
      rcases admitted_cases L s.state jws with ⟨e, -, heq⟩ |
        ⟨jwk, asked, hauth, ⟨a, hfind, heq⟩ | ⟨-, -, heq⟩ | ⟨hnone, honly, heq⟩⟩
      · rw [heq] at hresponse
        cases hresponse
      · rw [heq] at hresponse ⊢
        obtain ⟨-, -, key, hsigned⟩ := authenticate_eq_ok hauth hparse
        have hkey := hL.thumbprint_injective (hk.indexed.key _ _ hfind).2
        exact ⟨jwk, key, a, hsigned, hfind, hkey, accountResponse_eq_ok hresponse⟩
      · rw [heq] at hresponse
        cases hresponse
      · rw [heq] at hresponse ⊢
        obtain ⟨-, -, key, hsigned⟩ := authenticate_eq_ok hauth hparse
        refine ⟨jwk, key, _, hsigned, ?_, rfl, (accountResponse_eq_ok hresponse).congr rfl⟩
        exact AccountStore.find_withCreated.trans (if_pos rfl)

theorem keyed_run (hL : Assumptions L signed) (h : Run L s as t) (hs : Consistent L ttl s)
    (hk : Keyed L s) : Keyed L t :=
  (h.invariant (P := fun s => Consistent L ttl s ∧ Keyed L s)
    (fun _ _ _ hst hs => ⟨consistent_step hst hs.1, keyed_step hL hs.1 hst hs.2⟩) ⟨hs, hk⟩).2

theorem find_run (hL : Assumptions L signed) (h : Run L s as t) (hs : Consistent L ttl s)
    (hk : Keyed L s) (hfind : s.state.accounts.findByThumbprint tp = some a) :
    t.state.accounts.findByThumbprint tp = some a :=
  (h.invariant (P := fun s => (Consistent L ttl s ∧ Keyed L s) ∧
      s.state.accounts.findByThumbprint tp = some a)
    (fun _ _ _ hst hs => ⟨⟨consistent_step hst hs.1.1, keyed_step hL hs.1.1 hst hs.1.2⟩,
      hs.1.1.find_step hL hs.1.2.indexed hst hs.2⟩) ⟨⟨hs, hk⟩, hfind⟩).2

/-- What it is for accounts to be keys: ids count up from one, both indexes find the same accounts,
an account never changes, only the key's own signed request registers it, a request that fails
a check or registers nothing changes nothing, and a public key has one account. -/
structure AccountsAreKeys (L : Libraries) (signed : L.VerifyingKey → String → Prop)
    (s : Server) : Prop where
  ids : ∀ k, (∃ a, s.state.accounts.findById ⟨k⟩ = some a) ↔ 1 ≤ k ∧ k ≤ s.state.accounts.len
  indexes_agree : ∀ id a, s.state.accounts.findById id = some a ↔
    s.state.accounts.findByThumbprint a.thumbprint = some a ∧ a.id = id
  thumbprints : ∀ tp a, s.state.accounts.findByThumbprint tp = some a →
    a.thumbprint = tp ∧ a.key.thumbprint L = tp
  registers : ∀ act t, Step L s act t → t.state.accounts = s.state.accounts ∨
    ∃ i, act = .finish i ∧ Registers L signed s t i
  spares : ∀ i request jws t, s.tasks i = some ⟨request, .admitted jws⟩ → Step L s (.finish i) t →
    (∀ jwk asked, authenticate L (s.state.urlFor newAccountPath) jws = .ok (jwk, asked) →
      asked.onlyReturnExisting ∨
        ∃ a, s.state.accounts.findByThumbprint (jwk.thumbprint L) = some a) →
    t.state = s.state
  immutable : ∀ as t, Run L s as t → ∀ id a, s.state.accounts.findById id = some a →
    t.state.accounts.findById id = some a
  one_account : ∀ i j contentType contentType' body body' response response' jwk jwk' key,
    s.Granted i (.newAccount contentType body) response →
    s.Granted j (.newAccount contentType' body') response' →
    SignedBy L body jwk key → SignedBy L body' jwk' key →
    ∃ a, s.state.accounts.findById a.id = some a ∧ a.key.verifyingKey L = .ok key ∧
      response.For s.state a ∧ response'.For s.state a

/-- A body is signed inline by one key. -/
theorem SignedBy.jwk_eq {jwk' : Jwk} {key key' : L.VerifyingKey} (h : SignedBy L body jwk key)
    (h' : SignedBy L body jwk' key') : jwk = jwk' := by
  obtain ⟨jws, _, hparse, hjwk, -⟩ := h
  obtain ⟨jws', _, hparse', hjwk', -⟩ := h'
  rw [hparse] at hparse'
  cases hparse'
  exact Option.some.inj (hjwk.symm.trans hjwk')

/-- An accepted request gets the account of the key that signed it. -/
theorem Keyed.account_of_granted {key : L.VerifyingKey} (hk : Keyed L s)
    (hg : s.Granted i (.newAccount contentType body) response) (hsigned : SignedBy L body jwk key) :
    ∃ a, s.state.accounts.findByThumbprint (jwk.thumbprint L) = some a ∧ a.key = jwk ∧
      response.For s.state a := by
  obtain ⟨jwk', key', a, hsigned', hfind, hkey, hfor⟩ := hk.granted i contentType body response hg
  obtain rfl := hsigned.jwk_eq hsigned'
  exact ⟨a, hfind, hkey, hfor⟩

/-- In every run of the server accounts are keys. -/
theorem accounts_are_keys (hL : Assumptions L signed) (h : Run L (.start baseUrl ttl clock) as s) :
    AccountsAreKeys L signed s := by
  have hs : Consistent L ttl s := consistent_run h consistent_start
  have hk : Keyed L s := keyed_run hL h consistent_start keyed_start
  refine ⟨hk.indexed.ids_iff, fun _ _ => hk.indexed.findById_eq_some_iff, hk.indexed.key,
    ?registers, ?spares, ?immutable, ?one⟩
  case registers =>
    intro act t hstep
    exact (hs.registers_step hL hk.indexed hstep).imp_right And.left
  case spares =>
    intro i request jws t hi hstep hno
    cases hstep with
    | finish hi' =>
      cases hi.symm.trans hi'
      change (s.state.admitted L jws).2 = s.state
      rcases admitted_cases L s.state jws with ⟨e, -, heq⟩ |
        ⟨jwk, asked, hauth, ⟨a, -, heq⟩ | ⟨-, -, heq⟩ | ⟨hnone, honly, heq⟩⟩
      · rw [heq]
      · rw [heq]
      · rw [heq]
      · rcases hno jwk asked hauth with honly' | ⟨a, ha⟩
        · cases honly.symm.trans honly'
        · cases hnone.symm.trans ha
  case immutable =>
    intro as t hrun id a hfind
    obtain ⟨hfind, hid⟩ := hk.indexed.findById_eq_some_iff.mp hfind
    exact (keyed_run hL hrun hs hk).indexed.findById_eq_some_iff.mpr
      ⟨find_run hL hrun hs hk hfind, hid⟩
  case one =>
    intro i j contentType contentType' body body' response response' jwk jwk' key hg hg' hsigned
      hsigned'
    obtain ⟨a, hfind, hkey, hfor⟩ := hk.account_of_granted hg hsigned
    obtain ⟨a', hfind', -, hfor'⟩ := hk.account_of_granted hg' hsigned'
    have hvalid : jwk.verifyingKey L = .ok key := by
      obtain ⟨_, _, _, _, _, hvalid, -⟩ := hsigned
      exact hvalid
    have hvalid' : jwk'.verifyingKey L = .ok key := by
      obtain ⟨_, _, _, _, _, hvalid, -⟩ := hsigned'
      exact hvalid
    obtain rfl := hL.jwk_unique hvalid hvalid'
    obtain rfl : a = a' := Option.some.inj (hfind.symm.trans hfind')
    refine ⟨a, hk.indexed.findById_eq_some_iff.mpr ⟨?_, rfl⟩, hkey ▸ hvalid, hfor, hfor'⟩
    rw [(hk.indexed.key _ _ hfind).1]
    exact hfind

section sample

/-- The holder of the sample key signed the sample request. -/
def sampleSigned (key : sampleLibraries.VerifyingKey) (text : String) : Prop :=
  key = (sampleX, sampleY) ∧ text = sampleJws.signingInput

theorem mem_sampleBase64 {s : String} {bytes : List UInt8}
    (h : sampleLibraries.decodeBase64 s = some bytes) : (s, bytes) ∈ sampleBase64 := by
  simp only [sampleLibraries] at h
  obtain ⟨p, hfind, rfl⟩ := Option.map_eq_some_iff.mp h
  have hs : p.1 = s := by simpa only [decide_eq_true_eq] using List.find?_some hfind
  exact hs ▸ List.mem_of_find?_eq_some hfind

theorem sampleBase64_fst_unique :
    ∀ p ∈ sampleBase64, ∀ q ∈ sampleBase64, p.1 = q.1 → p = q := by
  have hnodup : (sampleBase64.map Prod.fst).Nodup := by decide +kernel
  intro p hp q hq hpq
  exact List.inj_on_of_nodup_map hnodup hp hq hpq

theorem sampleBase64_snd_unique :
    ∀ p ∈ sampleBase64, ∀ q ∈ sampleBase64, p.2 = q.2 → p = q := by
  have hnodup : (sampleBase64.map Prod.snd).Nodup := by decide +kernel
  intro p hp q hq hpq
  exact List.inj_on_of_nodup_map hnodup hp hq hpq

/-- No sample text starts with the byte of an equals sign. -/
theorem sampleBase64_head :
    ∀ p ∈ sampleBase64, p.1.toByteArray.data.toList.head? ≠ some 0x3d := by decide +kernel

theorem encode_sample (bytes : List UInt8) :
    (∃ p ∈ sampleBase64, p.2 = bytes ∧ sampleLibraries.encodeBase64 bytes = p.1) ∨
      (∀ p ∈ sampleBase64, p.2 ≠ bytes) ∧ sampleLibraries.encodeBase64 bytes =
        .ofList ('=' :: bytes.map (fun b => Char.ofNat b.toNat)) := by
  simp only [sampleLibraries]
  cases h : sampleBase64.find? (fun p => p.2 = bytes) with
  | none =>
    refine .inr ⟨fun p hp => ?_, rfl⟩
    simpa only [decide_eq_true_eq] using List.find?_eq_none.mp h p hp
  | some p =>
    have hp : p.2 = bytes := by simpa only [decide_eq_true_eq] using List.find?_some h
    exact .inl ⟨p, List.mem_of_find?_eq_some h, hp, rfl⟩

theorem ofNat_toNat_injective : Function.Injective (fun b : UInt8 => Char.ofNat b.toNat) := by
  intro b b' h
  have hvalid : ∀ b : UInt8, (Char.ofNat b.toNat).toNat = b.toNat := by
    intro b
    have := b.toNat_lt
    rw [Char.toNat_ofNat, if_pos (Or.inl (by omega))]
  have hnat := congrArg Char.toNat h
  simp only [hvalid] at hnat
  exact UInt8.toNat_inj.mp hnat

theorem eq_of_utf8_eq {s s' : String} (h : s.toUTF8.data.toList = s'.toUTF8.data.toList) :
    s = s' :=
  String.toByteArray_inj.mp (ByteArray.ext (Array.toList_inj.mp h))

theorem head?_ofList_equals {l : List Char} :
    (String.ofList ('=' :: l)).toByteArray.data.toList.head? = some 0x3d := by
  rw [String.toByteArray_ofList, List.utf8Encode_cons, ByteArray.data_append, Array.toList_append]
  rfl

theorem sample_assumptions : Assumptions sampleLibraries sampleSigned where
  sha256_collisionFree := by
    intro jwk jwk' h
    simp only [sampleLibraries] at h
    split at h <;> split at h
    · next h₁ h₂ => rw [h₁, h₂]
    · cases (List.cons.inj h).1
    · cases (List.cons.inj h).1
    · exact eq_of_utf8_eq (List.cons.inj h).2
  encodeBase64_injective := by
    intro bytes bytes' h
    rcases encode_sample bytes with ⟨p, hp, hbytes, he⟩ | ⟨-, he⟩ <;>
      rcases encode_sample bytes' with ⟨q, hq, hbytes', he'⟩ | ⟨-, he'⟩ <;> rw [he, he'] at h
    · rw [← hbytes, ← hbytes', sampleBase64_fst_unique p hp q hq h]
    · exact absurd (h ▸ head?_ofList_equals) (sampleBase64_head p hp)
    · exact absurd (h ▸ head?_ofList_equals) (sampleBase64_head q hq)
    · have htail := (List.cons.inj (String.ofList_injective h)).2
      exact List.map_injective_iff.mpr ofNat_toNat_injective htail
  decodeBase64_canonical := by
    intro s bytes h
    have hmem := mem_sampleBase64 h
    rcases encode_sample bytes with ⟨p, hp, hbytes, he⟩ | ⟨hnone, -⟩
    · rw [he, sampleBase64_snd_unique p hp _ hmem hbytes]
    · exact absurd rfl (hnone _ hmem)
  coordinates_unique := by
    intro x y x' y' key h h'
    simp only [sampleLibraries] at h h'
    obtain ⟨⟨rfl, rfl⟩, -⟩ := Option.ite_none_right_eq_some.mp h
    obtain ⟨⟨rfl, rfl⟩, -⟩ := Option.ite_none_right_eq_some.mp h'
    exact ⟨rfl, rfl⟩
  es256_sound := by
    intro key text signature h
    simp only [sampleLibraries, decide_eq_true_eq] at h
    exact ⟨h.1, h.2.1⟩

end sample

/-- The sample request registers its key as account 1. -/
theorem accounts_are_keys_sample : AccountsAreKeys sampleLibraries sampleSigned sampleRegistered :=
  accounts_are_keys sample_assumptions (run_sampleIssued.append run_sampleRegistered)

end Acme
