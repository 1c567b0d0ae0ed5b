import MtcCa.Acme.AccountKeys

/-! Requests as the client builds them (`crates/acme-core/src/client.rs`), and their way through
the server. -/
namespace Acme

open Cloud (SystemTime)

/-- What the client takes from the libraries: ES256 signing and the coordinates of a point, which
the identity does not have. -/
structure Client (L : Libraries) where
  SigningKey : Type
  verifyingKey : SigningKey → L.VerifyingKey
  sign : SigningKey → String → L.Signature
  signatureToBytes : L.Signature → List UInt8
  toEncodedPoint : L.VerifyingKey → Option (List UInt8) × Option (List UInt8)

/-- How a request binds to the account key. -/
inductive ClientBinding where
  | jwk
  | kid (kid : String)

/-- The bytes of a text. -/
def utf8 (s : String) : List UInt8 := s.toUTF8.data.toList

/-- A JSON object without blanks; the members are given in the order of their names. -/
def jsonObject (members : List (String × List Char)) : String :=
  .ofList ('\x7b' ::
    (List.intercalate [','] (members.map (fun m => jsonString m.1 ++ ':' :: m.2)) ++ ['\x7d']))

def FlattenedJws.json (flat : FlattenedJws) : String :=
  jsonObject [("payload", jsonString flat.payload), ("protected", jsonString flat.protectedB64),
    ("signature", jsonString flat.signature)]

/-- The header of a request with an inline key. -/
def jwkHeaderJson (jwk : Jwk) (nonce url : String) : String :=
  jsonObject [("alg", jsonString es256), ("jwk", jwk.canonical.toList), ("nonce", jsonString nonce),
    ("url", jsonString url)]

/-- The header of a request that names its account. -/
def kidHeaderJson (kid nonce url : String) : String :=
  jsonObject [("alg", jsonString es256), ("kid", jsonString kid), ("nonce", jsonString nonce),
    ("url", jsonString url)]

section code

variable {L : Libraries} (C : Client L)

def Jwk.fromVerifyingKey (key : L.VerifyingKey) : Except AcmeError Jwk :=
  match C.toEncodedPoint key with
  | (some x, some y) => .ok ⟨"EC", "P-256", L.encodeBase64 x, L.encodeBase64 y⟩
  | _ => .error (.badPublicKey "identity point")

/-- The envelope of a header and a payload, signed by `key`. -/
def Client.envelope (key : C.SigningKey) (header payload : String) : FlattenedJws :=
  let protectedB64 := L.encodeBase64 (utf8 header)
  let payloadB64 := L.encodeBase64 (utf8 payload)
  let signature := C.sign key (protectedB64 ++ "." ++ payloadB64)
  ⟨protectedB64, payloadB64, L.encodeBase64 (C.signatureToBytes signature)⟩

/-- The body of a request, signed by `key`; the payload is a JSON text. -/
def signedRequestBody (key : C.SigningKey) (binding : ClientBinding) (nonce url payload : String) :
    Except AcmeError String := do
  let header ← match binding with
    | .jwk => (Jwk.fromVerifyingKey C (C.verifyingKey key)).map (jwkHeaderJson · nonce url)
    | .kid kid => .ok (kidHeaderJson kid nonce url)
  .ok (C.envelope key header payload).json

/-- What the libraries are documented to do: what is encoded or written as JSON is read back, the
point of a key has its two coordinates, and a key verifies what it signed. -/
structure Client.Laws : Prop where
  decode_encode : ∀ bytes, L.decodeBase64 (L.encodeBase64 bytes) = some bytes
  point : ∀ key, ∃ x y, C.toEncodedPoint (C.verifyingKey key) = (some x, some y) ∧
    x.length = 32 ∧ y.length = 32 ∧ L.fromAffineCoordinates x y = some (C.verifyingKey key)
  signatureFromSlice : ∀ signature,
    L.signatureFromSlice (C.signatureToBytes signature) = some signature
  verify_sign : ∀ key text, L.verify (C.verifyingKey key) text (C.sign key text) = true
  parseFlattened : ∀ flat : FlattenedJws, L.parseFlattened (utf8 flat.json) = .ok flat
  parseHeader : ∀ jwk nonce url, L.parseHeader (utf8 (jwkHeaderJson jwk nonce url)) =
    .ok ⟨es256, some nonce, some url, some jwk, none⟩

end code

variable {L : Libraries} {C : Client L} {key : C.SigningKey} {nonce url payload body : String}
  {jwk : Jwk} {asked : NewAccountRequest} {s t u v : Server} {a : Action} {as : List Action}
  {i : ℕ} {n : Nonce} {now t₀ clock : SystemTime} {ttl : UInt64} {baseUrl : BaseUrl}
  {request : Request} {jws : Jws}

/-- The key that a client puts into its requests is read back. -/
theorem Client.Laws.exists_jwk (hC : C.Laws) (key : C.SigningKey) :
    ∃ jwk, Jwk.fromVerifyingKey C (C.verifyingKey key) = .ok jwk ∧
      jwk.verifyingKey L = .ok (C.verifyingKey key) := by
  obtain ⟨x, y, hpoint, hx, hy, hkey⟩ := hC.point key
  refine ⟨⟨"EC", "P-256", L.encodeBase64 x, L.encodeBase64 y⟩, ?_, ?_⟩
  · simp only [Jwk.fromVerifyingKey, hpoint]
  · have hcoordinate : ∀ name bytes, bytes.length = 32 →
        Jwk.decodeCoordinate L name (L.encodeBase64 bytes) = .ok bytes := by
      intro name bytes hlen
      simp only [Jwk.decodeCoordinate, hC.decode_encode, if_pos hlen]
    simp only [Jwk.verifyingKey, ne_eq, not_true_eq_false, if_false, hcoordinate _ _ hx,
      hcoordinate _ _ hy, Outcome.ok_bind, hkey]

/-- The request as the server reads it. -/
def Client.signedJws (C : Client L) (key : C.SigningKey) (jwk : Jwk)
    (nonce url payload : String) : Jws :=
  let flat := C.envelope key (jwkHeaderJson jwk nonce url) payload
  { header := ⟨es256, some nonce, some url, some jwk, none⟩
    payload := utf8 payload
    signature := C.signatureToBytes (C.sign key (flat.protectedB64 ++ "." ++ flat.payload))
    protectedB64 := flat.protectedB64
    payloadB64 := flat.payload }

theorem Client.Laws.parse (hC : C.Laws) :
    Jws.parse L (utf8 (C.envelope key (jwkHeaderJson jwk nonce url) payload).json) =
      .ok (C.signedJws key jwk nonce url payload) := by
  have hdecode := hC.decode_encode
  simp only [Jws.parse, hC.parseFlattened, Except.mapError, Outcome.ok_bind]
  simp only [Client.envelope, hdecode, Option.elim_some, Outcome.ok_bind, hC.parseHeader]
  rfl

theorem Client.Laws.verifySignature (hC : C.Laws) :
    (C.signedJws key jwk nonce url payload).verifySignature L (C.verifyingKey key) = .ok () := by
  simp only [Jws.verifySignature, Client.signedJws, hC.signatureFromSlice, Jws.signingInput]
  exact if_pos (hC.verify_sign key _)

theorem requireJoseJson_joseJson : requireJoseJson (some joseJson) = .ok () := by
  have htext : joseJson.toList = ['a', 'p', 'p', 'l', 'i', 'c', 'a', 't', 'i', 'o', 'n', '/', 'j',
      'o', 's', 'e', '+', 'j', 's', 'o', 'n'] := by simp [joseJson]
  have hmedia : mediaType joseJson = joseJson.toList := by
    rw [mediaType, htext]
    decide
  rw [requireJoseJson, Option.getD_some]
  exact if_pos (by rw [hmedia])

/-- The server parses what the client built, and every check but the nonce's passes. -/
theorem Client.Laws.exists_jws (hC : C.Laws) (hnonce : nonce ≠ "")
    (hbody : signedRequestBody C key .jwk nonce url payload = .ok body)
    (hpayload : L.parseRequest (utf8 payload) = .ok asked) :
    ∃ jwk jws, Jwk.fromVerifyingKey C (C.verifyingKey key) = .ok jwk ∧
      presentation L (some joseJson) (utf8 body) = .ok (jws, ⟨nonce⟩) ∧
      authenticate L url jws = .ok (jwk, asked) := by
  obtain ⟨jwk, hjwk, hverifying⟩ := hC.exists_jwk key
  simp only [signedRequestBody, hjwk, Except.map, Outcome.ok_bind] at hbody
  obtain rfl := Except.ok.inj hbody
  refine ⟨jwk, C.signedJws key jwk nonce url payload, hjwk, ?_, ?_⟩
  · have hfilter : (some nonce).filter (fun n => !n.isEmpty) = some nonce :=
      Option.filter_eq_some_iff.mpr ⟨rfl, by simpa using hnonce⟩
    have hn : (C.signedJws key jwk nonce url payload).nonce = .ok ⟨nonce⟩ := by
      simp only [Jws.nonce, Client.signedJws, hfilter]
    have halg : (C.signedJws key jwk nonce url payload).checkAlg = .ok () := if_pos rfl
    simp only [presentation, requireJoseJson_joseJson, Outcome.ok_bind, hC.parse, halg, hn]
  · have hurl : (C.signedJws key jwk nonce url payload).checkUrl url = .ok () := if_pos rfl
    have hinline : inlineKey (C.signedJws key jwk nonce url payload) = .ok jwk := rfl
    have hpayload' : L.parseRequest (C.signedJws key jwk nonce url payload).payload = .ok asked :=
      hpayload
    simp only [authenticate, hurl, hinline, Outcome.ok_bind, hverifying, hC.verifySignature,
      hpayload', Except.mapError]

/-- An admitted request waits for its own step, whatever the others do. -/
theorem admitted_step (h : Step L s a t) (hi : s.tasks i = some ⟨request, .admitted jws⟩)
    (ha : a ≠ .finish i) : t.tasks i = some ⟨request, .admitted jws⟩ := by
  have hother : ∀ {j : ℕ} {task task' : Option Task}, s.tasks j = task' →
      task' ≠ some ⟨request, .admitted jws⟩ →
      Function.update s.tasks j task i = some ⟨request, .admitted jws⟩ := by
    intro j task task' hj hne
    have hij : i ≠ j := by
      rintro rfl
      exact hne (hj.symm.trans hi)
    exact (Function.update_of_ne hij _ _).trans hi
  cases h with
  | arrive hj => exact hother hj (by rintro ⟨⟩)
  | directory hj => exact hother hj (by rintro ⟨⟩)
  | newNonce hj => exact hother hj (by rintro ⟨⟩)
  | reject hj he => exact hother hj (by rintro ⟨⟩)
  | @present j contentType body jws' n now hj hp hclock =>
    rcases tasks_present (s := s) j (.newAccount contentType body) jws' n now with htasks | htasks
    · rw [htasks]
      exact hother hj (by rintro ⟨⟩)
    · rw [htasks]
      exact hother hj (by rintro ⟨⟩)
  | @finish j request' jws' hj =>
    have hij : i ≠ j := by
      rintro rfl
      exact ha rfl
    exact (Function.update_of_ne hij _ _).trans hi
  | reply hj hclock hfresh =>
    rw [Server.reply_eq]
    exact hother hj (by rintro ⟨⟩)

theorem admitted_run (h : Run L s as t) (hi : s.tasks i = some ⟨request, .admitted jws⟩)
    (has : .finish i ∉ as) : t.tasks i = some ⟨request, .admitted jws⟩ := by
  induction h with
  | refl => exact hi
  | snoc _ hstep ih =>
    rw [List.mem_append, not_or, List.mem_singleton] at has
    exact admitted_step hstep (ih has.1) (Ne.symm has.2)

theorem baseUrl_run (h : Run L s as t) : t.state.baseUrl = s.state.baseUrl := by
  induction h with
  | refl => rfl
  | snoc _ hstep ih => exact (baseUrl_step hstep).trans ih

/-- An outstanding nonce that is presented in time lets its request in. -/
theorem Consistent.present_admitted (hs : Consistent L ttl s) (hout : Outstanding s.log n t₀)
    (hclock : s.clock ≤ now) (hdeadline : now ≤ addMillis t₀ ttl) :
    (s.present i request jws n now).tasks i = some ⟨request, .admitted jws⟩ := by
  have hpast := hs.chronicle.past n t₀ hout.issued_mem
  have hok : (s.state.nonces.consume n now).1 = .ok () := by
    refine (hs.chronicle.consume_ok_iff hclock).mpr ⟨t₀, hout, hpast.trans hclock, ?_⟩
    rw [hs.ttl_eq]
    exact hdeadline
  rw [Server.present_eq_passed hok]
  exact Function.update_self ..

/-- What an admitted request that passes its checks is answered with: the account of its key,
with status 201 when there was none before. -/
theorem exists_granted {state : AcmeState}
    (hauth : authenticate L (state.urlFor newAccountPath) jws = .ok (jwk, asked))
    (hasked : asked.onlyReturnExisting = false)
    (hheader : ∀ id, L.isHeaderValue (state.accountUrl id) = true) :
    ∃ response account, (state.admitted L jws).1 = .ok response ∧
      (state.admitted L jws).2.accounts.findByThumbprint (jwk.thumbprint L) = some account ∧
      response.For state account ∧ (response.status = 201 ↔
        state.accounts.findByThumbprint (jwk.thumbprint L) = none) := by
  have hresponse : ∀ account created, state.accountResponse L account created = .ok {
      status := if created then 201 else 200
      cacheControl := none
      location := some (state.accountUrl account.id)
      replayNonce := none
      body := .account (.of account) } := by
    intro account created
    exact if_pos (hheader account.id)
  rcases admitted_cases L state jws with ⟨e, herror, -⟩ |
    ⟨jwk', asked', hauth', ⟨account, hfind, heq⟩ | ⟨-, honly, -⟩ | ⟨hnone, -, heq⟩⟩
  · cases hauth.symm.trans herror
  · cases hauth.symm.trans hauth'
    rw [heq]
    refine ⟨_, account, hresponse account false, hfind, ⟨rfl, rfl⟩, ?_⟩
    simp [hfind]
  · cases hauth.symm.trans hauth'
    rw [hasked] at honly
    cases honly
  · cases hauth.symm.trans hauth'
    rw [heq]
    refine ⟨_, _, hresponse _ true, ?_, ⟨rfl, rfl⟩, ?_⟩
    · exact AccountStore.find_withCreated.trans (if_pos rfl)
    · simp [hnone]

/-- A request that the client builds, with a nonce that was issued and not presented, in time, is
admitted, and whatever runs beside it, the step that takes it to the accounts grants it the
account of its key. -/
theorem honest_client_registered (hC : C.Laws) (hrun : Run L (.start baseUrl ttl clock) as s)
    (hbody : signedRequestBody C key .jwk n.str (s.state.urlFor newAccountPath) payload = .ok body)
    (hpayload : L.parseRequest (utf8 payload) = .ok asked)
    (hasked : asked.onlyReturnExisting = false) (hnonce : n.str ≠ "")
    (hi : s.tasks i = some ⟨.newAccount (some joseJson) (utf8 body), .received⟩)
    (hout : Outstanding s.log n t₀) (hclock : s.clock ≤ now) (hdeadline : now ≤ addMillis t₀ ttl)
    (hheader : ∀ id, L.isHeaderValue (s.state.accountUrl id) = true) :
    ∃ u jwk, Step L s (.present i now) u ∧
      Jwk.fromVerifyingKey C (C.verifyingKey key) = .ok jwk ∧
      ∀ later v, Run L u later v → .finish i ∉ later →
        ∃ w response account, Step L v (.finish i) w ∧
          w.Granted i (.newAccount (some joseJson) (utf8 body)) response ∧
          w.state.accounts.findByThumbprint (jwk.thumbprint L) = some account ∧
          response.For w.state account ∧ (response.status = 201 ↔
            v.state.accounts.findByThumbprint (jwk.thumbprint L) = none) := by
  obtain ⟨jwk, jws, hjwk, hpresentation, hauth⟩ := hC.exists_jws hnonce hbody hpayload
  have hs : Consistent L ttl s := consistent_run hrun consistent_start
  have hstep := Step.present hi hpresentation hclock
  refine ⟨_, jwk, hstep, hjwk, ?_⟩
  intro later v hlater hfinish
  have hv := admitted_run hlater (hs.present_admitted hout hclock hdeadline) hfinish
  have hbase : v.state.baseUrl = s.state.baseUrl := (baseUrl_run hlater).trans (baseUrl_step hstep)
  have hurl : v.state.urlFor newAccountPath = s.state.urlFor newAccountPath := by
    simp only [AcmeState.urlFor, hbase]
  have hheader' : ∀ id, L.isHeaderValue (v.state.accountUrl id) = true := by
    intro id
    simpa only [AcmeState.accountUrl, AcmeState.urlFor, hbase] using hheader id
  obtain ⟨response, account, hok, hfind, hfor, hstatus⟩ :=
    exists_granted (hurl ▸ hauth) hasked hheader'
  refine ⟨_, response, account, Step.finish hv, ?_, hfind, hfor.congr baseUrl_admitted, hstatus⟩
  left
  exact (Function.update_self ..).trans (congrArg _ (congrArg _ (congrArg _ hok)))

/-! The libraries as they behave on a request of a client whose secret key is 32 bytes of 9. -/
section sample

/-- Reads a fixed text. -/
def expect (text r : List Char) : Option (List Char) :=
  if text <+: r then some (r.drop text.length) else none

/-- Reads the inside of a JSON string up to its closing quote. -/
def readChars : ℕ → List Char → Option (List Char × List Char)
  | 0, _ => none
  | fuel + 1, r =>
    match readJson r with
    | some (c, r) => (readChars fuel r).map (fun p => (c :: p.1, p.2))
    | none => (expect ['"'] r).map (fun r => ([], r))

def readString (r : List Char) : Option (String × List Char) :=
  (expect ['"'] r).bind fun r =>
    (readChars (r.length + 1) r).map (fun p => (.ofList p.1, p.2))

/-- Reads a fixed text and the string after it. -/
def readMember (text r : List Char) : Option (String × List Char) :=
  (expect text r).bind readString

theorem expect_append (text r : List Char) : expect text (text ++ r) = some r := by
  rw [expect, if_pos (List.prefix_append ..), List.drop_left]

theorem length_escapeJson (c : Char) : 0 < (escapeJson c).length := by
  unfold escapeJson
  repeat' split
  all_goals exact Nat.succ_pos _

theorem readChars_append {l r : List Char} {fuel : ℕ}
    (hfuel : (l.flatMap escapeJson).length < fuel) :
    readChars fuel (l.flatMap escapeJson ++ '"' :: r) = some (l, r) := by
  induction l generalizing fuel with
  | nil =>
    obtain ⟨fuel, rfl⟩ := Nat.exists_eq_succ_of_ne_zero (Nat.ne_of_gt hfuel)
    have hquote : readJson ('"' :: r) = none := rfl
    simp only [List.flatMap_nil, List.nil_append, readChars, hquote]
    exact congrArg _ (expect_append ['"'] r)
  | cons c l ih =>
    obtain ⟨fuel, rfl⟩ := Nat.exists_eq_succ_of_ne_zero (Nat.ne_of_gt (Nat.zero_lt_of_lt hfuel))
    rw [List.flatMap_cons, List.length_append] at hfuel
    have hpos := length_escapeJson c
    rw [List.flatMap_cons, List.append_assoc, readChars, readJson_escapeJson]
    exact congrArg (Option.map _) (ih (by omega))

theorem readString_append (s : String) (r : List Char) :
    readString (jsonString s ++ r) = some (s, r) := by
  have hsplit : jsonString s ++ r = ['"'] ++ (s.toList.flatMap escapeJson ++ '"' :: r) := by
    simp [jsonString]
  have hlen : (s.toList.flatMap escapeJson).length <
      (s.toList.flatMap escapeJson ++ '"' :: r).length + 1 := by
    rw [List.length_append]
    omega
  rw [hsplit, readString, expect_append, Option.bind_some, readChars_append hlen]
  exact congrArg some (congrArg (·, r) String.ofList_toList)

theorem readMember_append (text : List Char) (s : String) (r : List Char) :
    readMember text (text ++ (jsonString s ++ r)) = some (s, r) := by
  rw [readMember, expect_append, Option.bind_some, readString_append]

def readUtf8 (bytes : List UInt8) : Option (List Char) :=
  (ByteArray.mk bytes.toArray).utf8Decode?.map Array.toList

theorem readUtf8_utf8 (s : String) : readUtf8 (utf8 s) = some s.toList := by
  have hbytes : ByteArray.mk (utf8 s).toArray = s.toList.utf8Encode := by
    rw [← String.toByteArray_ofList, String.ofList_toList]
    rfl
  rw [readUtf8, hbytes, List.utf8Decode?_utf8Encode]
  exact congrArg some (List.toList_toArray ..)

/-- A member's name as it stands before its value. -/
def nameText (before : Char) (name : String) : List Char := before :: (jsonString name ++ [':'])

def readFlattened (r : List Char) : Option FlattenedJws := do
  let (payload, r) ← readMember (nameText '\x7b' "payload") r
  let (protectedB64, r) ← readMember (nameText ',' "protected") r
  let (signature, r) ← readMember (nameText ',' "signature") r
  if r = ['\x7d'] then some ⟨protectedB64, payload, signature⟩ else none

def readJwk (r : List Char) : Option (Jwk × List Char) := do
  let (crv, r) ← readMember "\x7b\"crv\":".toList r
  let (kty, r) ← readMember ",\"kty\":".toList r
  let (x, r) ← readMember ",\"x\":".toList r
  let (y, r) ← readMember ",\"y\":".toList r
  let r ← expect "\x7d".toList r
  some (⟨kty, crv, x, y⟩, r)

def readHeader (r : List Char) : Option ProtectedHeader := do
  let (alg, r) ← readMember (nameText '\x7b' "alg") r
  let r ← expect (nameText ',' "jwk") r
  let (jwk, r) ← readJwk r
  let (nonce, r) ← readMember (nameText ',' "nonce") r
  let (url, r) ← readMember (nameText ',' "url") r
  if r = ['\x7d'] then some ⟨alg, some nonce, some url, some jwk, none⟩ else none

theorem readFlattened_json (flat : FlattenedJws) : readFlattened flat.json.toList = some flat := by
  have hsplit : flat.json.toList = nameText '\x7b' "payload" ++ (jsonString flat.payload ++
      (nameText ',' "protected" ++ (jsonString flat.protectedB64 ++
        (nameText ',' "signature" ++ (jsonString flat.signature ++ ['\x7d']))))) := by
    simp only [FlattenedJws.json, jsonObject, nameText, String.toList_ofList, List.intercalate,
      List.intersperse, List.map_cons, List.map_nil, List.flatten_cons, List.flatten_nil,
      List.append_assoc, List.cons_append, List.nil_append, List.append_nil]
  simp only [hsplit, readFlattened, readMember_append, Option.bind_eq_bind, Option.bind_some,
    if_true]

theorem readJwk_append (jwk : Jwk) (r : List Char) :
    readJwk (jwk.canonical.toList ++ r) = some (jwk, r) := by
  have hjwk : jwk.canonical.toList = _ := String.toList_ofList
  rw [hjwk]
  simp only [List.append_assoc, readJwk, readMember_append, expect_append, Option.bind_eq_bind,
    Option.bind_some]

theorem readHeader_json (jwk : Jwk) (nonce url : String) :
    readHeader (jwkHeaderJson jwk nonce url).toList =
      some ⟨es256, some nonce, some url, some jwk, none⟩ := by
  have hsplit : (jwkHeaderJson jwk nonce url).toList =
      nameText '\x7b' "alg" ++ (jsonString es256 ++ (nameText ',' "jwk" ++
        (jwk.canonical.toList ++ (nameText ',' "nonce" ++ (jsonString nonce ++
          (nameText ',' "url" ++ (jsonString url ++ ['\x7d']))))))) := by
    simp only [jwkHeaderJson, jsonObject, nameText, String.toList_ofList, List.intercalate,
      List.intersperse, List.map_cons, List.map_nil, List.flatten_cons, List.flatten_nil,
      List.append_assoc, List.cons_append, List.nil_append, List.append_nil]
  simp only [hsplit, readHeader, readMember_append, expect_append, readJwk_append,
    Option.bind_eq_bind, Option.bind_some, if_true]

def clientX : List UInt8 :=
  [113, 53, 250, 79, 217, 58, 9, 220, 233, 139, 191, 104, 27, 75, 252, 245, 14, 124, 13, 99, 84,
   230, 42, 251, 11, 255, 42, 52, 41, 97, 120, 101]

def clientY : List UInt8 :=
  [237, 76, 31, 2, 221, 185, 2, 62, 229, 106, 85, 126, 81, 93, 106, 157, 198, 108, 17, 242, 32,
   150, 13, 229, 148, 51, 77, 245, 136, 119, 103, 36]

def clientSignature : List UInt8 :=
  [83, 242, 141, 252, 0, 213, 87, 112, 45, 11, 105, 62, 133, 22, 83, 5, 217, 221, 49, 60, 186,
   29, 60, 240, 133, 217, 159, 155, 14, 202, 102, 22, 219, 208, 67, 186, 11, 195, 245, 60, 169,
   255, 165, 246, 144, 37, 115, 104, 64, 76, 64, 0, 239, 23, 44, 116, 75, 43, 101, 75, 6, 139,
   227, 81]

def clientDigest : List UInt8 :=
  [194, 127, 62, 107, 17, 74, 156, 225, 68, 158, 118, 152, 36, 24, 36, 25, 133, 50, 14, 57, 183,
   219, 194, 62, 142, 159, 163, 237, 167, 160, 91, 233]

def clientJwk : Jwk where
  kty := "EC"
  crv := "P-256"
  x := "cTX6T9k6Cdzpi79oG0v89Q58DWNU5ir7C_8qNClheGU"
  y := "7UwfAt25Aj7lalV-UV1qncZsEfIglg3llDNN9Yh3ZyQ"

def clientPayload : String := "\x7b\"termsOfServiceAgreed\":true\x7d"

def clientFlattened : FlattenedJws where
  protectedB64 :=
    "eyJhbGciOiJFUzI1NiIsImp3ayI6eyJjcnYiOiJQLTI1NiIsImt0eSI6IkVDIiwieCI6ImNUWDZUOWs2" ++
    "Q2R6cGk3OW9HMHY4OVE1OERXTlU1aXI3Q184cU5DbGhlR1UiLCJ5IjoiN1V3ZkF0MjVBajdsYWxWLVVW" ++
    "MXFuY1pzRWZJZ2xnM2xsRE5OOVloM1p5USJ9LCJub25jZSI6IkFBRUNBd1FGQmdjSUNRb0xEQTBPRHci" ++
    "LCJ1cmwiOiJodHRwOi8vbG9jYWxob3N0L2FjbWUvbmV3LWFjY291bnQifQ"
  payload := "eyJ0ZXJtc09mU2VydmljZUFncmVlZCI6dHJ1ZX0"
  signature :=
    "U_KN_ADVV3AtC2k-hRZTBdndMTy6HTzwhdmfmw7KZhbb0EO6C8P1PKn_pfaQJXNoQExAAO8XLHRLK2VLBovjUQ"

def clientUrl : String := "http://localhost/acme/new-account"

/-- The base64url texts of the request. -/
def clientTable : List (String × List UInt8) :=
  [(clientFlattened.protectedB64, utf8 (jwkHeaderJson clientJwk sampleNonce.str clientUrl)),
   (clientFlattened.payload, utf8 clientPayload), (clientFlattened.signature, clientSignature),
   (clientJwk.x, clientX), (clientJwk.y, clientY),
   ("wn8-axFKnOFEnnaYJBgkGYUyDjm328I-jp-j7aegW-k", clientDigest)]

/-- A byte string outside the table, as a text that is not base64url. -/
def plainText (bytes : List UInt8) : String :=
  .ofList ('=' :: bytes.map (fun b => Char.ofNat b.toNat))

def readPlain : List Char → Option (List UInt8)
  | '=' :: l => some (l.map (fun c => UInt8.ofNat c.toNat))
  | _ => none

def clientSign (text : String) : {b : List UInt8 // b.length = 64} :=
  if text = clientFlattened.protectedB64 ++ "." ++ clientFlattened.payload then
    ⟨clientSignature, rfl⟩
  else ⟨List.replicate 64 0, List.length_replicate⟩

def clientLibraries : Libraries where
  VerifyingKey := List UInt8 × List UInt8
  Signature := {b : List UInt8 // b.length = 64}
  decodeBase64 s :=
    match clientTable.find? (fun p => p.1 = s) with
    | some p => some p.2
    | none => readPlain s.toList
  encodeBase64 bytes :=
    match clientTable.find? (fun p => p.2 = bytes) with
    | some p => p.1
    | none => plainText bytes
  sha256 text := if text = clientJwk.canonical then clientDigest else 0 :: utf8 text
  fromAffineCoordinates x y := if x = clientX ∧ y = clientY then some (x, y) else none
  signatureFromSlice bytes := if h : bytes.length = 64 then some ⟨bytes, h⟩ else none
  verify key text signature := key = (clientX, clientY) ∧ signature = clientSign text
  parseFlattened body :=
    ((readUtf8 body).bind readFlattened).elim (.error "expected value at line 1 column 1") .ok
  parseHeader bytes :=
    ((readUtf8 bytes).bind readHeader).elim (.error "expected value at line 1 column 1") .ok
  parseRequest payload :=
    if payload = utf8 clientPayload then .ok ⟨[], true, false⟩
    else .error "expected value at line 1 column 1"
  isHeaderValue text := text.toList.all (fun c => c = '\t' ∨ 0x20 ≤ c.toNat ∧ c.toNat < 0x7f)

def sampleClient : Client clientLibraries where
  SigningKey := Unit
  verifyingKey _ := (clientX, clientY)
  sign _ := clientSign
  signatureToBytes signature := signature.val
  toEncodedPoint key := (some key.1, some key.2)

theorem clientTable_texts : (clientTable.map Prod.fst).Nodup ∧
    ∀ p ∈ clientTable, p.1.toByteArray.data.toList.head? ≠ some 0x3d := by decide +kernel

theorem readPlain_plainText (bytes : List UInt8) :
    readPlain (plainText bytes).toList = some bytes := by
  have hbyte : ∀ b : UInt8, UInt8.ofNat (Char.ofNat b.toNat).toNat = b := by
    intro b
    have := b.toNat_lt
    rw [Char.toNat_ofNat, if_pos (Or.inl (by omega)), UInt8.ofNat_toNat]
  rw [plainText, String.toList_ofList, readPlain, List.map_map]
  exact congrArg some ((List.map_congr_left (fun b _ => hbyte b)).trans (List.map_id _))

theorem sampleClient_laws : sampleClient.Laws where
  decode_encode := by
    intro bytes
    obtain ⟨hnodup, hhead⟩ := clientTable_texts
    simp only [clientLibraries]
    cases hbytes : clientTable.find? (fun p => p.2 = bytes) with
    | some p =>
      have hp : p.2 = bytes := by simpa only [decide_eq_true_eq] using List.find?_some hbytes
      have hmem := List.mem_of_find?_eq_some hbytes
      cases htext : clientTable.find? (fun q => q.1 = p.1) with
      | some q =>
        have hq : q.1 = p.1 := by simpa only [decide_eq_true_eq] using List.find?_some htext
        rw [List.inj_on_of_nodup_map hnodup (List.mem_of_find?_eq_some htext) hmem hq]
        exact congrArg some hp
      | none => exact absurd (decide_eq_true rfl) (List.find?_eq_none.mp htext p hmem)
    | none =>
      cases htext : clientTable.find? (fun q => q.1 = plainText bytes) with
      | some q =>
        have hq : q.1 = plainText bytes := by
          simpa only [decide_eq_true_eq] using List.find?_some htext
        refine absurd ?_ (hhead q (List.mem_of_find?_eq_some htext))
        rw [hq]
        exact head?_ofList_equals
      | none => exact readPlain_plainText bytes
  point _ := by
    refine ⟨clientX, clientY, rfl, rfl, rfl, ?_⟩
    simp [clientLibraries, sampleClient]
  signatureFromSlice signature := dif_pos signature.property
  verify_sign _ _ := by simp [clientLibraries, sampleClient]
  parseFlattened flat := by
    simp only [clientLibraries, readUtf8_utf8, Option.bind_some, readFlattened_json,
      Option.elim_some]
  parseHeader jwk nonce url := by
    simp only [clientLibraries, readUtf8_utf8, Option.bind_some, readHeader_json,
      Option.elim_some]

theorem sampleStart_baseUrl : sampleStart.state.baseUrl.str = "http://localhost" := by
  decide +kernel

theorem isHeaderValue_accountUrl (id : AccountId) :
    clientLibraries.isHeaderValue (sampleStart.state.accountUrl id) = true := by
  have hdigits : ∀ c ∈ (toString id.val).toList, 0x20 ≤ c.toNat ∧ c.toNat < 0x7f := by
    intro c hc
    have htext : (toString id.val).toList = Nat.toDigits 10 id.val := Nat.toList_repr
    rw [htext] at hc
    have hdigit := Nat.isDigit_of_mem_toDigits (by decide) (by decide) hc
    simp only [Char.isDigit, Bool.and_eq_true, decide_eq_true_eq] at hdigit
    have hlow : '0'.toNat ≤ c.toNat := hdigit.1
    have hhigh : c.toNat ≤ '9'.toNat := hdigit.2
    have h0 : '0'.toNat = 48 := rfl
    have h9 : '9'.toNat = 57 := rfl
    omega
  have hpath : ∀ c ∈ ("http://localhost" ++ accountPathPrefix).toList,
      0x20 ≤ c.toNat ∧ c.toNat < 0x7f := by simp [accountPathPrefix]
  simp only [clientLibraries, AcmeState.accountUrl, AcmeState.urlFor, BaseUrl.join,
    sampleStart_baseUrl, List.all_eq_true, decide_eq_true_eq]
  intro c hc
  right
  rw [← String.append_assoc, String.toList_append, List.mem_append] at hc
  exact hc.elim (hpath c) (hdigits c)

def clientRequest : Request := .newAccount (some joseJson) (utf8 clientFlattened.json)

/-- The nonce was issued, and the request of the client has arrived. -/
def clientWaiting : Server :=
  (((sampleStart.setTask 0 (.newNonce .head) .received).setTask 0 (.newNonce .head)
    (.handled (.ok (newNonce .head)))).reply clientLibraries 0 (.newNonce .head)
      (.ok (newNonce .head)) ⟨1⟩ (.ok sampleNonce)).setTask 1 clientRequest .received

theorem run_clientWaiting : Run clientLibraries sampleStart [.arrive 0 (.newNonce .head),
    .handle 0, .reply 0 ⟨1⟩ (.ok sampleNonce), .arrive 1 clientRequest] clientWaiting := by
  refine .cons (.arrive ?arrive) (.cons (.newNonce ?handle)
    (.cons (.reply ?reply ?clock ?fresh) (.cons (.arrive ?second) .refl)))
  case arrive => rfl
  case handle => rfl
  case reply => rfl
  case clock => decide
  case fresh =>
    rintro nonce - ⟨t, h⟩
    cases h
  case second => rfl

theorem encodeBase64_clientTable {p : String × List UInt8} (hp : p ∈ clientTable) :
    clientLibraries.encodeBase64 p.2 = p.1 := by
  have hnodup : (clientTable.map Prod.snd).Nodup := by decide +kernel
  simp only [clientLibraries]
  cases hfind : clientTable.find? (fun q => q.2 = p.2) with
  | some q =>
    have hq : q.2 = p.2 := by simpa only [decide_eq_true_eq] using List.find?_some hfind
    exact congrArg Prod.fst
      (List.inj_on_of_nodup_map hnodup (List.mem_of_find?_eq_some hfind) hp hq)
  | none => exact absurd (decide_eq_true rfl) (List.find?_eq_none.mp hfind p hp)

theorem signedRequestBody_client : signedRequestBody sampleClient () .jwk sampleNonce.str clientUrl
    clientPayload = .ok clientFlattened.json := by
  have hmem : ∀ p ∈ clientTable, clientLibraries.encodeBase64 p.2 = p.1 :=
    fun p => encodeBase64_clientTable
  simp only [clientTable, List.forall_mem_cons] at hmem
  obtain ⟨hheader, hpayload, hsignature, hx, hy, -⟩ := hmem
  have hjwk : Jwk.fromVerifyingKey sampleClient (clientX, clientY) = .ok clientJwk := by
    simp only [Jwk.fromVerifyingKey, sampleClient, hx, hy]
    rfl
  have hsign : clientSign (clientFlattened.protectedB64 ++ "." ++ clientFlattened.payload) =
      ⟨clientSignature, rfl⟩ := if_pos rfl
  have hkey : sampleClient.verifyingKey () = (clientX, clientY) := rfl
  simp only [signedRequestBody, hkey, hjwk, Except.map, Outcome.ok_bind, Client.envelope, hheader,
    hpayload]
  simp only [sampleClient, hsign, hsignature]

/-- The client is the first to register. -/
theorem honest_client_registered_first : ∃ (u w : Server) (response : Response),
    Step clientLibraries clientWaiting (.present 1 ⟨2⟩) u ∧
    Step clientLibraries u (.finish 1) w ∧ w.Granted 1 clientRequest response ∧
    response.status = 201 := by
  have hurl : clientWaiting.state.urlFor newAccountPath = clientUrl :=
    congrArg (· ++ newAccountPath) sampleStart_baseUrl
  have hout : Outstanding clientWaiting.log sampleNonce ⟨1⟩ := ⟨[], [], rfl, by simp⟩
  have hclock : clientWaiting.clock ≤ ⟨2⟩ := by decide
  have hdeadline : (⟨2⟩ : SystemTime) ≤ addMillis ⟨1⟩ defaultNonceTtlMillis := by decide
  have hwaiting : clientWaiting.tasks 1 = some ⟨clientRequest, .received⟩ := rfl
  have hpayload : clientLibraries.parseRequest (utf8 clientPayload) = .ok ⟨[], true, false⟩ := by
    simp [clientLibraries]
  obtain ⟨u, jwk, hpresent, -, hall⟩ := honest_client_registered sampleClient_laws
    run_clientWaiting (hurl ▸ signedRequestBody_client) hpayload rfl (by decide) hwaiting hout
    hclock hdeadline isHeaderValue_accountUrl
  obtain ⟨w, response, account, hfinish, hgranted, -, -, hstatus⟩ := hall [] u .refl (by simp)
  refine ⟨u, w, response, hpresent, hfinish, hgranted, hstatus.mpr ?_⟩
  have hs : Consistent clientLibraries defaultNonceTtlMillis clientWaiting :=
    consistent_run run_clientWaiting consistent_start
  rcases hs.accounts_step hpresent with haccounts | ⟨_, _, _, hfinish, _⟩
  · rw [haccounts]
    rfl
  · cases hfinish

end sample

end Acme
