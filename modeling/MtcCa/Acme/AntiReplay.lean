import MtcCa.Acme.Chronicle

/-! A nonce admits one request, and only in time, in every run of the server. -/
namespace Acme

open Cloud (SystemTime)

variable {L : Libraries} {s t u : Server} {a : Action} {as : List Action} {log log' : List Event}
variable {n : Nonce} {now t₀ t₁ : SystemTime} {ttl : UInt64} {i j : ℕ} {b : Bool}
variable {request : Request} {result : Except AcmeError Response} {response : Response}
variable {drawn : Except String Nonce} {baseUrl : BaseUrl} {clock : SystemTime}

/-- Request `i` has presented nothing. -/
def Silent (log : List Event) (i : ℕ) : Prop := ∀ n t b, .presented i n t b ∉ log

/-- Request `i` has presented once, with this outcome. -/
def PresentedOnce (log : List Event) (i : ℕ) (n : Nonce) (t : SystemTime) (b : Bool) : Prop :=
  ∀ n' t' b', .presented i n' t' b' ∈ log ↔ n' = n ∧ t' = t ∧ b' = b

/-- The result of a request and what it presented agree. -/
inductive Settled (L : Libraries) (log : List Event) (i : ℕ) :
    Request → Except AcmeError Response → Prop where
  | other {request : Request} {result : Except AcmeError Response} (hs : Silent log i)
      (hr : ∀ contentType body, request ≠ .newAccount contentType body) :
      Settled L log i request result
  | early {contentType : Option String} {body : List UInt8} {e : AcmeError} (hs : Silent log i)
      (hp : presentation L contentType body = .error e) :
      Settled L log i (.newAccount contentType body) (.error e)
  | refused {contentType : Option String} {body : List UInt8} {jws : Jws} {n : Nonce}
      {t : SystemTime} (hp : presentation L contentType body = .ok (jws, n))
      (ho : PresentedOnce log i n t false) :
      Settled L log i (.newAccount contentType body) (.error .badNonce)
  | passed {contentType : Option String} {body : List UInt8} {jws : Jws} {n : Nonce}
      {t : SystemTime} {result : Except AcmeError Response}
      (hp : presentation L contentType body = .ok (jws, n)) (ho : PresentedOnce log i n t true) :
      Settled L log i (.newAccount contentType body) result

/-- A response with the nonce drawn for it, or the server error when none was. -/
def stamp (L : Libraries) (response : Response) : Except String Nonce → Response
  | .ok n => if L.isHeaderValue n.str then { response with replayNonce := some n } else response
  | .error e => (AcmeError.internal ("os rng: " ++ e)).response

/-- The state of a request and what it presented agree. -/
def TaskConsistent (L : Libraries) (log : List Event) (i : ℕ) : Option Task → Prop
  | none => Silent log i
  | some ⟨_, .received⟩ => Silent log i
  | some ⟨request, .admitted jws⟩ => ∃ contentType body n t,
      request = .newAccount contentType body ∧ presentation L contentType body = .ok (jws, n) ∧
        PresentedOnce log i n t true
  | some ⟨request, .handled result⟩ => Settled L log i request result
  | some ⟨request, .answered result response⟩ => Settled L log i request result ∧
      ∃ drawn, response = stamp L (intoResponse result) drawn

structure Consistent (L : Libraries) (ttl : UInt64) (s : Server) : Prop where
  ttl_eq : s.state.nonces.ttlMillis = ttl
  chronicle : Chronicle s.state.nonces s.clock s.log
  task : ∀ i, TaskConsistent L s.log i (s.tasks i)

theorem attachReplayNonce_eq (state : AcmeState) :
    state.attachReplayNonce L response now drawn =
      (stamp L response drawn, { state with nonces := (state.nonces.issue now drawn).2 }) := by
  cases drawn <;> rfl

theorem nonces_admitted (state : AcmeState) (jws : Jws) :
    (state.admitted L jws).2.nonces = state.nonces := by
  unfold AcmeState.admitted
  split
  · rfl
  · split <;> rfl

section spec

variable {jws : Jws}

theorem Server.present_eq_passed (h : (s.state.nonces.consume n now).1 = .ok ()) :
    s.present i request jws n now = {
      state := { s.state with nonces := (s.state.nonces.consume n now).2 }
      tasks := Function.update s.tasks i (some ⟨request, .admitted jws⟩)
      clock := now
      log := .presented i n now true :: s.log } := by
  simp only [Server.present, AcmeState.consumeNonce, h]

theorem Server.present_eq_refused (h : (s.state.nonces.consume n now).1 = .error .badNonce) :
    s.present i request jws n now = {
      state := { s.state with nonces := (s.state.nonces.consume n now).2 }
      tasks := Function.update s.tasks i (some ⟨request, .handled (.error .badNonce)⟩)
      clock := now
      log := .presented i n now false :: s.log } := by
  simp only [Server.present, AcmeState.consumeNonce, h]

theorem Server.reply_eq : s.reply L i request result now drawn = {
    state := { s.state with nonces := (s.state.nonces.issue now drawn).2 }
    tasks := Function.update s.tasks i
      (some ⟨request, .answered result (stamp L (intoResponse result) drawn)⟩)
    clock := now
    log := drawn.toOption.elim s.log (fun n => .issued n now :: s.log) } := by
  simp only [Server.reply, attachReplayNonce_eq]

end spec

/-- Only what request `i` presented matters to its state. -/
theorem TaskConsistent.congr {task : Option Task}
    (h : ∀ n t b, .presented i n t b ∈ log' ↔ .presented i n t b ∈ log)
    (ht : TaskConsistent L log i task) : TaskConsistent L log' i task := by
  have hsilent : Silent log i → Silent log' i := fun hs n t b hmem => hs n t b ((h n t b).mp hmem)
  have honce : ∀ {n t b}, PresentedOnce log i n t b → PresentedOnce log' i n t b :=
    fun ho n' t' b' => (h n' t' b').trans (ho n' t' b')
  have hsettled : ∀ {request result}, Settled L log i request result →
      Settled L log' i request result := by
    intro request result hset
    cases hset with
    | other hs hr => exact .other (hsilent hs) hr
    | early hs hp => exact .early (hsilent hs) hp
    | refused hp ho => exact .refused hp (honce ho)
    | passed hp ho => exact .passed hp (honce ho)
  match task, ht with
  | none, hs => exact hsilent hs
  | some ⟨_, .received⟩, hs => exact hsilent hs
  | some ⟨_, .admitted _⟩, ⟨contentType, body, n, t, hreq, hp, ho⟩ =>
    exact ⟨contentType, body, n, t, hreq, hp, honce ho⟩
  | some ⟨_, .handled _⟩, hset => exact hsettled hset
  | some ⟨_, .answered _ _⟩, ⟨hset, hresponse⟩ => exact ⟨hsettled hset, hresponse⟩

/-- A step of request `i` concerns no other request. -/
theorem taskConsistent_update {task : Option Task}
    (h : ∀ j, TaskConsistent L s.log j (s.tasks j))
    (hlog : ∀ j ≠ i, ∀ n t b, .presented j n t b ∈ log' ↔ .presented j n t b ∈ s.log)
    (hi : TaskConsistent L log' i task) (j : ℕ) :
    TaskConsistent L log' j (Function.update s.tasks i task j) := by
  by_cases hj : j = i
  · subst hj
    rwa [Function.update_self]
  · rw [Function.update_of_ne hj]
    exact (h j).congr (hlog j hj)

theorem presentedOnce_cons (h : Silent log i) :
    PresentedOnce (.presented i n now b :: log) i n now b := by
  intro n' t' b'
  rw [List.mem_cons]
  constructor
  · rintro (he | hmem)
    · cases he
      exact ⟨rfl, rfl, rfl⟩
    · exact absurd hmem (h n' t' b')
  · rintro ⟨rfl, rfl, rfl⟩
    exact .inl rfl

theorem mem_cons_presented_of_ne (hj : j ≠ i) {n' : Nonce} {t' : SystemTime} {b' : Bool} :
    .presented j n' t' b' ∈ Event.presented i n now b :: log ↔ .presented j n' t' b' ∈ log := by
  rw [List.mem_cons, or_iff_right]
  intro he
  cases he
  exact hj rfl

theorem mem_elim_issued {n' : Nonce} {t' : SystemTime} {b' : Bool} :
    .presented j n' t' b' ∈ drawn.toOption.elim log (fun n => .issued n now :: log) ↔
      .presented j n' t' b' ∈ log := by
  cases drawn with
  | error => exact Iff.rfl
  | ok n =>
    change _ ∈ Event.issued n now :: log ↔ _
    rw [List.mem_cons, or_iff_right]
    intro he
    cases he

theorem consistent_start : Consistent L ttl (.start baseUrl ttl clock) where
  ttl_eq := rfl
  chronicle := chronicle_start
  task := by
    intro i n t b h
    cases h

theorem Consistent.of_task (hs : Consistent L ttl s) {i : ℕ} {task : Option Task}
    (hi : s.tasks i = task) : TaskConsistent L s.log i task := by
  have htask := hs.task i
  rwa [hi] at htask

theorem consistent_step (h : Step L s a t) (hs : Consistent L ttl s) : Consistent L ttl t := by
  -- the steps that leave the registry alone
  have hquiet : ∀ {i : ℕ} {task : Option Task} {state : AcmeState},
      state.nonces = s.state.nonces → TaskConsistent L s.log i task →
      Consistent L ttl ⟨state, Function.update s.tasks i task, s.clock, s.log⟩ := by
    intro i task state hstate hi
    refine ⟨hstate ▸ hs.ttl_eq, hstate ▸ hs.chronicle, ?_⟩
    exact taskConsistent_update hs.task (fun _ _ _ _ _ => Iff.rfl) hi
  cases h with
  | @arrive i request hi =>
    have hsilent := hs.of_task hi
    exact hquiet rfl hsilent
  | @directory i hi =>
    have hsilent := hs.of_task hi
    exact hquiet rfl (Settled.other hsilent (fun _ _ => by simp))
  | @newNonce i method hi =>
    have hsilent := hs.of_task hi
    exact hquiet rfl (Settled.other hsilent (fun _ _ => by simp))
  | @reject i contentType body e hi he =>
    have hsilent := hs.of_task hi
    exact hquiet rfl (Settled.early hsilent he)
  | @present i contentType body jws n now hi hp hclock =>
    have hsilent := hs.of_task hi
    rcases NonceStore.consume_fst_eq_or s.state.nonces n now with hok | hbad
    · rw [Server.present_eq_passed hok]
      refine ⟨NonceStore.ttlMillis_consume.trans hs.ttl_eq, ?_, ?_⟩
      · exact hs.chronicle.consume hclock (by simp [hok])
      · exact taskConsistent_update hs.task (fun j hj _ _ _ => mem_cons_presented_of_ne hj)
          ⟨contentType, body, n, now, rfl, hp, presentedOnce_cons hsilent⟩
    · rw [Server.present_eq_refused hbad]
      refine ⟨NonceStore.ttlMillis_consume.trans hs.ttl_eq, ?_, ?_⟩
      · exact hs.chronicle.consume hclock (by simp [hbad])
      · exact taskConsistent_update hs.task (fun j hj _ _ _ => mem_cons_presented_of_ne hj)
          (Settled.refused hp (presentedOnce_cons hsilent))
  | @finish i request jws hi =>
    have hadmitted := hs.of_task hi
    obtain ⟨contentType, body, n, t, rfl, hp, ho⟩ := hadmitted
    exact hquiet (nonces_admitted s.state jws) (Settled.passed hp ho)
  | @reply i request result now drawn hi hclock hfresh =>
    have hsettled := hs.of_task hi
    rw [Server.reply_eq]
    refine ⟨NonceStore.ttlMillis_issue.trans hs.ttl_eq, ?_, ?_⟩
    · cases drawn with
      | error e => exact hs.chronicle.issue_error (e := e) hclock
      | ok n => exact hs.chronicle.issue hclock (hfresh n rfl)
    · refine taskConsistent_update hs.task (fun j _ _ _ _ => mem_elim_issued) ?_
      have hsame : TaskConsistent L (drawn.toOption.elim s.log (fun n => .issued n now :: s.log)) i
          (some ⟨request, .handled result⟩) :=
        TaskConsistent.congr (fun _ _ _ => mem_elim_issued) hsettled
      exact ⟨hsame, drawn, rfl⟩

theorem consistent_run (h : Run L s as t) (hs : Consistent L ttl s) : Consistent L ttl t :=
  h.invariant (fun _ _ _ hst hs => consistent_step hst hs) hs

/-- Request `i` was accepted. -/
def Server.Accepted (s : Server) (i : ℕ) (request : Request) : Prop := ∃ response,
  s.tasks i = some ⟨request, .handled (.ok response)⟩ ∨
    ∃ sent, s.tasks i = some ⟨request, .answered (.ok response) sent⟩

/-- The request a step belongs to. -/
def Action.task : Action → ℕ
  | .arrive i _ | .handle i | .present i _ | .finish i | .reply i _ _ => i

theorem presentation_eq_ok {contentType : Option String} {body : List UInt8} {jws : Jws}
    (h : presentation L contentType body = .ok (jws, n)) :
    requireJoseJson contentType = .ok () ∧ Jws.parse L body = .ok jws ∧ jws.checkAlg = .ok () ∧
      jws.nonce = .ok n := by
  obtain ⟨_, hjose, h⟩ := Outcome.bind_eq_ok_iff.mp h
  obtain ⟨jws', hparse, h⟩ := Outcome.bind_eq_ok_iff.mp h
  obtain ⟨_, halg, h⟩ := Outcome.bind_eq_ok_iff.mp h
  obtain ⟨n', hnonce, h⟩ := Outcome.bind_eq_ok_iff.mp h
  cases h
  exact ⟨hjose, hparse, halg, hnonce⟩

theorem Consistent.settled_of_accepted (hs : Consistent L ttl s) (h : s.Accepted i request) :
    ∃ response, Settled L s.log i request (.ok response) := by
  obtain ⟨response, h | ⟨sent, h⟩⟩ := h
  · have hi := hs.task i
    rw [h] at hi
    exact ⟨response, hi⟩
  · have hi := hs.task i
    rw [h] at hi
    exact ⟨response, hi.1⟩

/-- An accepted request has presented its nonce and passed. -/
theorem Consistent.passed_of_accepted {contentType : Option String} {body : List UInt8}
    (hs : Consistent L ttl s) (h : s.Accepted i (.newAccount contentType body)) :
    ∃ jws n t, presentation L contentType body = .ok (jws, n) ∧ .presented i n t true ∈ s.log := by
  obtain ⟨response, hset⟩ := hs.settled_of_accepted h
  cases hset with
  | other _ hr => exact absurd rfl (hr _ _)
  | passed hp ho => exact ⟨_, _, _, hp, (ho _ _ _).mpr ⟨rfl, rfl, rfl⟩⟩

/-- A refused request stands refused, whatever its answer's nonce. -/
theorem Consistent.refused (hs : Consistent L ttl s) {t : SystemTime}
    (h : .presented i n t false ∈ s.log) : ∃ request,
      s.tasks i = some ⟨request, .handled (.error .badNonce)⟩ ∨
        ∃ drawn, s.tasks i = some ⟨request, .answered (.error .badNonce)
          (stamp L AcmeError.badNonce.response drawn)⟩ := by
  have hsettled : ∀ {request result}, Settled L s.log i request result →
      result = .error .badNonce := by
    intro request result hset
    cases hset with
    | other hs hr => exact absurd h (hs _ _ _)
    | early hs hp => exact absurd h (hs _ _ _)
    | refused => rfl
    | passed hp ho => cases ((ho _ _ _).mp h).2.2
  have hi := hs.task i
  match htask : s.tasks i with
  | none =>
    rw [htask] at hi
    exact absurd h (hi _ _ _)
  | some ⟨request, .received⟩ =>
    rw [htask] at hi
    exact absurd h (hi _ _ _)
  | some ⟨request, .admitted jws⟩ =>
    rw [htask] at hi
    obtain ⟨_, _, _, _, _, _, ho⟩ := hi
    cases ((ho _ _ _).mp h).2.2
  | some ⟨request, .handled result⟩ =>
    rw [htask] at hi
    obtain rfl := hsettled hi
    exact ⟨request, .inl rfl⟩
  | some ⟨request, .answered result response⟩ =>
    rw [htask] at hi
    obtain ⟨hset, drawn, rfl⟩ := hi
    obtain rfl := hsettled hset
    exact ⟨request, .inr ⟨drawn, rfl⟩⟩

/-- Only a request past its nonce check goes to the account store. -/
theorem Consistent.accounts_step (hs : Consistent L ttl s) (h : Step L s a t) :
    t.state.accounts = s.state.accounts ∨
      ∃ i n t, a = .finish i ∧ .presented i n t true ∈ s.log := by
  cases h with
  | arrive => exact .inl rfl
  | directory => exact .inl rfl
  | newNonce => exact .inl rfl
  | reject => exact .inl rfl
  | @present i contentType body jws n now hi hp hclock =>
    left
    rcases NonceStore.consume_fst_eq_or s.state.nonces n now with hok | hbad
    · rw [Server.present_eq_passed hok]
    · rw [Server.present_eq_refused hbad]
  | @finish i request jws hi =>
    right
    have hadmitted := hs.task i
    rw [hi] at hadmitted
    obtain ⟨_, _, n, t, _, _, ho⟩ := hadmitted
    exact ⟨i, n, t, rfl, (ho _ _ _).mpr ⟨rfl, rfl, rfl⟩⟩
  | reply =>
    left
    rw [Server.reply_eq]

theorem Consistent.admits_once (hs : Consistent L ttl s) {t t' : SystemTime}
    (h : .presented i n t true ∈ s.log) (h' : .presented j n t' true ∈ s.log) :
    i = j ∧ t = t' := by
  have hle : s.log.countP (Event.passes n) ≤ 1 :=
    (Nat.le_add_right ..).trans
      ((hs.chronicle.judged.countP_passes_le).trans (hs.chronicle.once n))
  have heq := eq_of_countP_le_one hle h h' (by simp [Event.passes]) (by simp [Event.passes])
  cases heq
  exact ⟨rfl, rfl⟩

theorem le_addMillis : now ≤ addMillis now ttl := by
  change now.nanos ≤ now.nanos + ttl.toNat * 10 ^ 6
  omega

/-- Right after an issue the registry is what is outstanding and in time. -/
theorem Consistent.holds_outstanding (hs : Consistent L ttl s)
    (h : Step L s (.reply i now (.ok n)) u) (m : Nonce) (d : SystemTime) :
    u.state.nonces.issued.get? m = some d ↔
      ∃ t₀, Outstanding u.log m t₀ ∧ d = addMillis t₀ ttl ∧ now ≤ d := by
  have hu := consistent_step h hs
  cases h with
  | reply hi hclock hfresh =>
    rw [Server.reply_eq] at hu ⊢
    have httl : (s.state.nonces.issue now (.ok n)).2.ttlMillis = ttl := hu.ttl_eq
    constructor
    · intro hget
      obtain ⟨t₀, hout, hd⟩ := hu.chronicle.registered m d hget
      refine ⟨t₀, hout, httl ▸ hd, ?_⟩
      rw [NonceStore.get?_issue_ok] at hget
      split at hget
      · rw [hget]
        exact le_addMillis
      · exact hget.2
    · rintro ⟨t₀, hout, rfl, hle⟩
      have hkept := hu.chronicle.kept m t₀ hout
      rw [hu.ttl_eq] at hkept
      exact hkept hle

/-- What anti-replay asks of a state: a nonce lets one request past its check, between its issue
and its deadline; an unspendable one is answered with `badNonce`, which leaves the accounts
alone; a body accepted once is not accepted again; and the registry holds, right after an
issue, what is outstanding and in time. -/
structure AntiReplay (L : Libraries) (ttl : UInt64) (s : Server) : Prop where
  admits_once : ∀ n i j t t', .presented i n t true ∈ s.log → .presented j n t' true ∈ s.log →
    i = j ∧ t = t'
  admits_in_time : ∀ i n t, .presented i n t true ∈ s.log →
    ∃ t₀, .issued n t₀ ∈ s.log ∧ t₀ ≤ t ∧ t ≤ addMillis t₀ ttl
  refuses : ∀ i contentType body jws n now u,
    s.tasks i = some ⟨.newAccount contentType body, .received⟩ →
    presentation L contentType body = .ok (jws, n) → Unspendable ttl s.log n now →
    Step L s (.present i now) u →
    u.tasks i = some ⟨.newAccount contentType body, .handled (.error .badNonce)⟩ ∧
      u.state.accounts = s.state.accounts ∧ .presented i n now false ∈ u.log
  answers : ∀ i n t, .presented i n t false ∈ s.log → ∃ request,
    s.tasks i = some ⟨request, .handled (.error .badNonce)⟩ ∨
      ∃ drawn, s.tasks i = some ⟨request, .answered (.error .badNonce)
        (stamp L AcmeError.badNonce.response drawn)⟩
  accounts : ∀ a u, Step L s a u → u.state.accounts = s.state.accounts ∨
    ∃ n t, .presented a.task n t true ∈ s.log ∧ ∀ n' t', .presented a.task n' t' false ∉ s.log
  no_replay : ∀ i j contentType contentType' body, i ≠ j →
    s.Accepted i (.newAccount contentType body) → ¬ s.Accepted j (.newAccount contentType' body)
  holds_outstanding : ∀ i now n u, Step L s (.reply i now (.ok n)) u → ∀ m d,
    u.state.nonces.issued.get? m = some d ↔
      ∃ t₀, Outstanding u.log m t₀ ∧ d = addMillis t₀ ttl ∧ now ≤ d

/-- Every run of the server is free of replays. -/
theorem anti_replay (h : Run L (.start baseUrl ttl clock) as s) : AntiReplay L ttl s := by
  have hs : Consistent L ttl s := consistent_run h consistent_start
  refine ⟨?once, ?inTime, ?refuses, ?answers, ?accounts, ?noReplay, ?holds⟩
  case once =>
    intro n i j t t' h h'
    exact hs.admits_once h h'
  case inTime =>
    intro i n t h
    obtain ⟨earlier, hsuffix, hjudged⟩ := hs.chronicle.judged.of_mem h
    obtain ⟨t₀, hout, hle, hdeadline⟩ := hjudged.mp rfl
    rw [hs.ttl_eq] at hdeadline
    exact ⟨t₀, hsuffix.subset (List.mem_cons_of_mem _ hout.issued_mem), hle, hdeadline⟩
  case refuses =>
    intro i contentType body jws n now u hi hp hspent hstep
    cases hstep with
    | present hi' hp' hclock =>
      rw [hi] at hi'
      cases hi'
      rw [hp] at hp'
      cases hp'
      have hbad : (s.state.nonces.consume n now).1 = .error .badNonce := by
        refine (NonceStore.consume_fst_eq_or _ _ _).resolve_left (fun hok => ?_)
        obtain ⟨t₀, hout, -, hdeadline⟩ := (hs.chronicle.consume_ok_iff hclock).mp hok
        rw [hs.ttl_eq] at hdeadline
        exact hspent.not_outstanding (hs.chronicle.once n) hout hdeadline
      rw [Server.present_eq_refused hbad]
      exact ⟨Function.update_self .., rfl, List.mem_cons_self ..⟩
  case answers =>
    intro i n t h
    exact hs.refused h
  case accounts =>
    intro a u hstep
    refine (hs.accounts_step hstep).imp_right ?_
    rintro ⟨i, n, t, rfl, hmem⟩
    refine ⟨n, t, hmem, fun n' t' hfalse => ?_⟩
    cases hstep with
    | finish hi =>
      obtain ⟨request, h | ⟨drawn, h⟩⟩ := hs.refused hfalse
      · cases hi.symm.trans h
      · cases hi.symm.trans h
  case noReplay =>
    intro i j contentType contentType' body hne hi hj
    obtain ⟨jws, n, t, hp, hmem⟩ := hs.passed_of_accepted hi
    obtain ⟨jws', n', t', hp', hmem'⟩ := hs.passed_of_accepted hj
    obtain ⟨-, hparse, -, hnonce⟩ := presentation_eq_ok hp
    obtain ⟨-, hparse', -, hnonce'⟩ := presentation_eq_ok hp'
    rw [hparse] at hparse'
    cases hparse'
    rw [hnonce] at hnonce'
    cases hnonce'
    exact hne (hs.admits_once hmem hmem').1
  case holds =>
    intro i now n u hstep m d
    exact hs.holds_outstanding hstep m d

/-! A request as a client sends it: its envelope, its nonce and the key that signed it. -/
section sample

def sampleNonce : Nonce := ⟨"AAECAwQFBgcICQoLDA0ODw"⟩

def sampleX : List UInt8 :=
  [111, 240, 59, 148, 146, 65, 206, 29, 173, 212, 53, 25, 230, 150, 14, 10, 133, 180, 26,
   105, 160, 92, 50, 129, 3, 170, 43, 206, 21, 148, 202, 22]

def sampleY : List UInt8 :=
  [60, 79, 117, 58, 85, 191, 1, 220, 83, 246, 192, 176, 199, 238, 231, 139, 64, 198, 255,
   125, 37, 169, 110, 34, 130, 185, 137, 206, 247, 28, 20, 74]

def sampleSignature : List UInt8 :=
  [8, 139, 185, 255, 34, 171, 41, 26, 116, 200, 111, 198, 119, 186, 137, 123, 170, 222, 227,
   112, 204, 97, 41, 184, 45, 23, 11, 163, 252, 38, 65, 92, 167, 77, 169, 29, 169, 154, 84,
   37, 138, 149, 170, 21, 248, 131, 136, 255, 237, 110, 141, 233, 37, 215, 46, 245, 4, 105,
   7, 136, 186, 33, 253, 55]

def sampleJwk : Jwk where
  kty := "EC"
  crv := "P-256"
  x := "b_A7lJJBzh2t1DUZ5pYOCoW0GmmgXDKBA6orzhWUyhY"
  y := "PE91OlW_AdxT9sCwx-7ni0DG_30lqW4igrmJzvccFEo"

def sampleHeader : ProtectedHeader where
  alg := "ES256"
  nonce := some sampleNonce.str
  url := some "http://localhost/acme/new-account"
  jwk := some sampleJwk
  kid := none

def sampleFlattened : FlattenedJws where
  protectedB64 :=
    "eyJhbGciOiJFUzI1NiIsIm5vbmNlIjoiQUFFQ0F3UUZCZ2NJQ1FvTERBME9EdyIsInVybCI6Imh0dHA6" ++
    "Ly9sb2NhbGhvc3QvYWNtZS9uZXctYWNjb3VudCIsImp3ayI6eyJrdHkiOiJFQyIsImNydiI6IlAtMjU2" ++
    "IiwieCI6ImJfQTdsSkpCemgydDFEVVo1cFlPQ29XMEdtbWdYREtCQTZvcnpoV1V5aFkiLCJ5IjoiUEU5" ++
    "MU9sV19BZHhUOXNDd3gtN25pMERHXzMwbHFXNGlncm1KenZjY0ZFbyJ9fQ"
  payload := "eyJ0ZXJtc09mU2VydmljZUFncmVlZCI6dHJ1ZX0"
  signature :=
    "CIu5_yKrKRp0yG_Gd7qJe6re43DMYSm4LRcLo_wmQVynTakdqZpUJYqVqhX4g4j_7W6N6SXXLvUEaQeIuiH9Nw"

/-- The bytes of an ASCII text. -/
def asciiBytes (text : String) : List UInt8 := text.toList.map (fun c => UInt8.ofNat c.toNat)

def sampleHeaderBytes : List UInt8 := asciiBytes
  ("\x7b\"alg\":\"ES256\",\"nonce\":\"AAECAwQFBgcICQoLDA0ODw\",\"url\":\"http://localhost/" ++
    "acme/new-account\",\"jwk\":\x7b\"kty\":\"EC\",\"crv\":\"P-256\",\"x\":\"b_A7lJJBzh2t1DUZ5" ++
    "pYOCoW0GmmgXDKBA6orzhWUyhY\",\"y\":\"PE91OlW_AdxT9sCwx-7ni0DG_30lqW4igrmJzvc" ++
    "cFEo\"\x7d\x7d")

def samplePayload : List UInt8 := asciiBytes "\x7b\"termsOfServiceAgreed\":true\x7d"

def sampleBody : List UInt8 := asciiBytes
  ("\x7b\"protected\":\"" ++ sampleFlattened.protectedB64 ++ "\",\"payload\":\"" ++
    sampleFlattened.payload ++ "\",\"signature\":\"" ++ sampleFlattened.signature ++ "\"\x7d")

def sampleJws : Jws where
  header := sampleHeader
  payload := samplePayload
  signature := sampleSignature
  protectedB64 := sampleFlattened.protectedB64
  payloadB64 := sampleFlattened.payload

def sampleDigest : List UInt8 :=
  [54, 186, 160, 223, 227, 63, 95, 11, 113, 251, 91, 91, 181, 205, 73, 237, 123, 165, 216,
   60, 158, 11, 70, 212, 75, 47, 110, 255, 147, 82, 27, 168]

def sampleBase64 : List (String × List UInt8) :=
  [(sampleFlattened.protectedB64, sampleHeaderBytes), (sampleFlattened.payload, samplePayload),
   (sampleFlattened.signature, sampleSignature), (sampleJwk.x, sampleX), (sampleJwk.y, sampleY),
   ("Nrqg3-M_Xwtx-1tbtc1J7Xul2DyeC0bUSy9u_5NSG6g", sampleDigest)]

/-- The libraries as they behave on the sample request; JSON is always read as the sample's. -/
def sampleLibraries : Libraries where
  VerifyingKey := List UInt8 × List UInt8
  Signature := List UInt8
  decodeBase64 s := (sampleBase64.find? (fun p => p.1 = s)).map Prod.snd
  encodeBase64 bytes := ((sampleBase64.find? (fun p => p.2 = bytes)).map Prod.fst).getD
    (.ofList ('=' :: bytes.map (fun b => Char.ofNat b.toNat)))
  sha256 text := if text = sampleJwk.canonical then sampleDigest else 0 :: text.toUTF8.data.toList
  fromAffineCoordinates x y := if x = sampleX ∧ y = sampleY then some (x, y) else none
  signatureFromSlice bytes := if bytes.length = 64 then some bytes else none
  verify key text signature :=
    key = (sampleX, sampleY) ∧ text = sampleJws.signingInput ∧ signature = sampleSignature
  parseFlattened _ := .ok sampleFlattened
  parseHeader _ := .ok sampleHeader
  parseRequest _ := .ok ⟨[], true, false⟩
  isHeaderValue text := text.toList.all (fun c => c = '\t' ∨ 0x20 ≤ c.toNat ∧ c.toNat < 0x7f)

end sample

theorem presentation_sample :
    presentation sampleLibraries (some joseJson) sampleBody = .ok (sampleJws, sampleNonce) := by
  decide +kernel

/-! The client fetches a nonce, registers with it, and sends the request once more. -/
section sampleRun

def sampleRequest : Request := .newAccount (some joseJson) sampleBody

def sampleStart : Server := .start (.new "http://localhost/") defaultNonceTtlMillis ⟨0⟩

def sampleIssued : Server :=
  (((sampleStart.setTask 0 (.newNonce .head) .received).setTask 0 (.newNonce .head)
    (.handled (.ok (newNonce .head)))).reply sampleLibraries 0 (.newNonce .head)
      (.ok (newNonce .head)) ⟨1⟩ (.ok sampleNonce)).setTask 1 sampleRequest .received

def sampleRegistered : Server :=
  (sampleIssued.present 1 sampleRequest sampleJws sampleNonce ⟨2⟩).finish sampleLibraries 1
    sampleRequest sampleJws

def sampleResent : Server :=
  (sampleRegistered.setTask 2 sampleRequest .received).present 2 sampleRequest sampleJws
    sampleNonce ⟨3⟩

theorem run_sampleIssued : Run sampleLibraries sampleStart [.arrive 0 (.newNonce .head),
    .handle 0, .reply 0 ⟨1⟩ (.ok sampleNonce), .arrive 1 sampleRequest] sampleIssued := by
  refine .cons (.arrive ?arrive) (.cons (.newNonce ?handle)
    (.cons (.reply ?reply ?clock ?fresh) (.cons (.arrive ?second) .refl)))
  case arrive => rfl
  case handle => rfl
  case reply => rfl
  case clock => decide
  case fresh =>
    rintro nonce - ⟨t, h⟩
    cases h
  case second => rfl

theorem run_sampleRegistered : Run sampleLibraries sampleIssued [.present 1 ⟨2⟩, .finish 1]
    sampleRegistered := by
  refine .cons (.present ?task presentation_sample ?clock) (.cons (.finish ?finish) .refl)
  case task => rfl
  case clock => decide
  case finish => rfl

theorem run_sampleResent : Run sampleLibraries sampleRegistered
    [.arrive 2 sampleRequest, .present 2 ⟨3⟩] sampleResent := by
  refine .cons (.arrive ?arrive) (.cons (.present ?task presentation_sample ?clock) .refl)
  case arrive => rfl
  case task => rfl
  case clock => decide

end sampleRun

/-- Sending the registered request once more is refused. -/
theorem anti_replay_resent : AntiReplay sampleLibraries defaultNonceTtlMillis sampleResent ∧
    sampleResent.log = [.presented 2 sampleNonce ⟨3⟩ false, .presented 1 sampleNonce ⟨2⟩ true,
      .issued sampleNonce ⟨1⟩] :=
  ⟨anti_replay ((run_sampleIssued.append run_sampleRegistered).append run_sampleResent), by
    decide +kernel⟩

end Acme
