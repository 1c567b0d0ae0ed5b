import MtcCa.Checkpoint.Signer
import MtcCa.Lib.FiniteMap
import MtcCa.Lib.Transition

/-! The in-memory HSM (`crates/cloud-memory/src/hsm.rs`, `crates/cloud-types/src/hsm.rs`). A call
of `generate_key` draws a key, takes a number and stores the key, and other calls may come in
between. -/
namespace Cloud

open CheckpointSigner (KeyHandle Signer)
open Mtc (P256 ecdsaP256)
open Transition

/-- The curve library with what the HSM calls of it: signing, and the public key and its DER
encoding. -/
structure Curve extends P256 where
  sign : SecretKey → List UInt8 → Sig
  publicKeyOf : SecretKey → PublicKey
  publicKeyToDer : PublicKey → Except String (List UInt8)

/-- What the curve library is documented to do. -/
structure Curve.Laws (p : Curve) : Prop where
  verify_sign : ∀ key data, p.verify (p.publicKeyOf key) data (p.sign key data) = true
  sigFromSlice_sigToBytes : ∀ sig, p.sigFromSlice (p.sigToBytes sig) = some sig
  length_sigToBytes : ∀ sig, (p.sigToBytes sig).length = 64
  publicKeyFromDer : ∀ key der, p.publicKeyToDer key = .ok der → p.publicKeyFromDer der = some key

/-- A public key as it leaves the HSM. -/
structure PublicKey where
  spkiDer : List UInt8
deriving DecidableEq

namespace MemoryHsm

section code

variable (p : Curve)

/-- The attempts that are left at drawing a key. -/
def randomSigningKeyFrom (draw : ℕ → Except String (List UInt8)) (k : ℕ) :
    ℕ → Except CloudError p.SecretKey
  | 0 => .error (.transport false "failed to draw a valid P-256 scalar after repeated attempts")
  | left + 1 =>
    match draw k with
    | .error error => .error (.transport true ("CSPRNG failure: " ++ error))
    | .ok scalarBytes =>
      match p.secretKeyFromSlice scalarBytes with
      | some key => .ok key
      | none => randomSigningKeyFrom draw (k + 1) left

def maxAttempts : ℕ := 8

/-- A signing key from the draws of the system's random source. -/
def randomSigningKey (draw : ℕ → Except String (List UInt8)) : Except CloudError p.SecretKey :=
  randomSigningKeyFrom p draw 0 maxAttempts

/-- The low `w` hexadecimal digits of a number. -/
def hexDigits : ℕ → ℕ → List Char
  | 0, _ => []
  | w + 1, n => hexDigits w (n / 16) ++ [Nat.digitChar (n % 16)]

def handleOf (id : UInt64) : KeyHandle :=
  ⟨"mem-hsm-" ++ String.ofList (hexDigits 16 id.toNat)⟩

abbrev Keys : Type := FiniteMap KeyHandle p.SecretKey

def sign (keys : Keys p) (handle : KeyHandle) (data : List UInt8) :
    Except CloudError (List UInt8) :=
  match keys.get? handle with
  | none => .error (.notFound handle.str)
  | some signingKey => .ok (p.sigToBytes (p.sign signingKey data))

def getPublicKey (keys : Keys p) (handle : KeyHandle) : Except CloudError PublicKey :=
  match keys.get? handle with
  | none => .error (.notFound handle.str)
  | some signingKey =>
    match p.publicKeyToDer (p.publicKeyOf signingKey) with
    | .error error => .error (.transport false ("SPKI DER encoding failed: " ++ error))
    | .ok der => .ok ⟨der⟩

def isFipsValidated : Bool := false

/-- Where a call of `generate_key` is. -/
inductive Task where
  | idle
  | drawn (key : p.SecretKey)
  | numbered (id : UInt64) (key : p.SecretKey)

structure World where
  keys : Keys p
  nextId : UInt64
  tasks : ℕ → Task p

def World.new : World p := ⟨FiniteMap.empty, 0, fun _ => .idle⟩

end code

inductive Event where
  | drawn (i : ℕ)
  | failed (i : ℕ) (e : CloudError)
  | numbered (i : ℕ)
  | generated (i : ℕ) (handle : KeyHandle)
  | signed (handle : KeyHandle) (data : List UInt8) (result : Except CloudError (List UInt8))
  | publicKey (handle : KeyHandle) (result : Except CloudError PublicKey)

variable {p : Curve}

def World.put (w : World p) (i : ℕ) (t : Task p) : World p :=
  { w with tasks := Function.update w.tasks i t }

inductive Step (w : World p) : Event → World p → Prop where
  | draw {i : ℕ} {draw : ℕ → Except String (List UInt8)} {key : p.SecretKey}
      (hidle : w.tasks i = .idle) (hkey : randomSigningKey p draw = .ok key) :
      Step w (.drawn i) (w.put i (.drawn key))
  | fail {i : ℕ} {draw : ℕ → Except String (List UInt8)} {e : CloudError}
      (hidle : w.tasks i = .idle) (hkey : randomSigningKey p draw = .error e) :
      Step w (.failed i e) w
  | number {i : ℕ} {key : p.SecretKey} (h : w.tasks i = .drawn key) :
      Step w (.numbered i) ({ w with nextId := w.nextId + 1 }.put i (.numbered w.nextId key))
  | insert {i : ℕ} {id : UInt64} {key : p.SecretKey} (h : w.tasks i = .numbered id key) :
      Step w (.generated i (handleOf id))
        ({ w with keys := w.keys.insert (handleOf id) key }.put i .idle)
  | sign (handle : KeyHandle) (data : List UInt8) :
      Step w (.signed handle data (sign p w.keys handle data)) w
  | publicKey (handle : KeyHandle) :
      Step w (.publicKey handle (getPublicKey p w.keys handle)) w

variable {w w' : World p} {e : Event} {events : List Event} {handle : KeyHandle} {i j : ℕ}
  {id : UInt64} {key : p.SecretKey}

/-- The steps that take a number. -/
def Event.isNumbered : Event → Bool
  | .numbered _ => true
  | _ => false

/-- The handles that were given out, in order. -/
def generatedHandles (events : List Event) : List KeyHandle :=
  events.filterMap (fun
    | .generated _ handle => some handle
    | _ => none)

theorem hexDigits_inj {w n m : ℕ} (hn : n < 16 ^ w) (hm : m < 16 ^ w)
    (h : hexDigits w n = hexDigits w m) : n = m := by
  induction w generalizing n m with
  | zero => omega
  | succ w ih =>
    obtain ⟨hfront, hlast⟩ := List.append_inj' h rfl
    have hdigit : ∀ a < 16, ∀ b < 16, Nat.digitChar a = Nat.digitChar b → a = b := by decide
    have hmod := hdigit _ (Nat.mod_lt n (by decide)) _ (Nat.mod_lt m (by decide))
      (List.singleton_inj.mp hlast)
    have hdiv := ih (Nat.div_lt_of_lt_mul (by rwa [pow_succ'] at hn))
      (Nat.div_lt_of_lt_mul (by rwa [pow_succ'] at hm)) hfront
    omega

theorem handleOf_inj {a b : UInt64} (h : handleOf a = handleOf b) : a = b := by
  have htext := congrArg String.toList (KeyHandle.mk.inj h)
  rw [String.toList_append, String.toList_append, List.append_cancel_left_eq,
    String.toList_ofList, String.toList_ofList] at htext
  exact UInt64.toNat_inj.mp (hexDigits_inj (by simpa using a.toNat_lt)
    (by simpa using b.toNat_lt) htext)

theorem tasks_put {t : Task p} (h : (w.put i t).tasks j = .numbered id key) :
    j = i ∧ t = .numbered id key ∨ j ≠ i ∧ w.tasks j = .numbered id key := by
  change Function.update w.tasks i t j = _ at h
  by_cases hj : j = i
  · subst hj
    rw [Function.update_self] at h
    exact Or.inl ⟨rfl, h⟩
  · rw [Function.update_of_ne hj] at h
    exact Or.inr ⟨hj, h⟩

/-- The numbers below `n` have been taken: each by one call, that has or has not stored its key. -/
structure Fresh (n : ℕ) (w : World p) : Prop where
  nextId : w.nextId.toNat = n
  below : ∀ i id key, w.tasks i = .numbered id key → id.toNat < n
  apart : ∀ i j id key key', w.tasks i = .numbered id key → w.tasks j = .numbered id key' → i = j
  unstored : ∀ i id key, w.tasks i = .numbered id key → w.keys.get? (handleOf id) = none
  stored : ∀ handle key, w.keys.get? handle = some key → ∃ id, id.toNat < n ∧ handle = handleOf id

theorem fresh_new : Fresh 0 (World.new p) where
  nextId := rfl
  below := by rintro i id key ⟨⟩
  apart := by rintro i j id key key' ⟨⟩
  unstored := by rintro i id key ⟨⟩
  stored := by
    intro handle key h
    rw [World.new, FiniteMap.get?_empty] at h
    cases h

/-- A call that goes on without a number, or gives its number up, leaves the others' numbers. -/
theorem Fresh.put {n : ℕ} (hs : Fresh n w) {t : Task p} (ht : ∀ id key, t ≠ .numbered id key) :
    Fresh n (w.put i t) := by
  have hbefore : ∀ j id key, (w.put i t).tasks j = .numbered id key →
      w.tasks j = .numbered id key := by
    intro j id key h
    obtain ⟨-, rfl⟩ | ⟨-, hj⟩ := tasks_put h
    · exact absurd rfl (ht id key)
    · exact hj
  refine ⟨hs.nextId, ?_, ?_, ?_, hs.stored⟩
  · intro j id key h
    exact hs.below j id key (hbefore j id key h)
  · intro j k id key key' h h'
    exact hs.apart j k id key key' (hbefore j id key h) (hbefore k id key' h')
  · intro j id key h
    exact hs.unstored j id key (hbefore j id key h)

/-- The next number is one that no call has. -/
theorem Fresh.number {n : ℕ} (hs : Fresh n w) (hn : n + 1 < 2 ^ 64) :
    Fresh (n + 1) ({ w with nextId := w.nextId + 1 }.put i (.numbered w.nextId key)) := by
  have hnext := hs.nextId
  have hfree : w.keys.get? (handleOf w.nextId) = none := by
    by_contra hsome
    obtain ⟨key', hkey'⟩ := Option.ne_none_iff_exists'.mp hsome
    obtain ⟨id, hid, hhandle⟩ := hs.stored _ key' hkey'
    rw [← handleOf_inj hhandle] at hid
    omega
  refine ⟨?_, ?_, ?_, ?_, ?_⟩
  · change (w.nextId + 1).toNat = n + 1
    rw [UInt64.toNat_add, UInt64.toNat_one, hnext, Nat.mod_eq_of_lt hn]
  · intro j id key' h
    obtain ⟨-, heq⟩ | ⟨-, hj⟩ := tasks_put h
    · cases heq
      omega
    · exact (hs.below j id key' hj).trans (Nat.lt_succ_self n)
  · intro j k id key₁ key₂ h₁ h₂
    obtain ⟨rfl, heq⟩ | ⟨-, hj⟩ := tasks_put h₁ <;> obtain ⟨rfl, heq'⟩ | ⟨-, hk⟩ := tasks_put h₂
    · rfl
    · cases heq
      exact absurd (hs.below k _ _ hk) (by omega)
    · cases heq'
      exact absurd (hs.below j _ _ hj) (by omega)
    · exact hs.apart j k id key₁ key₂ hj hk
  · intro j id key' h
    obtain ⟨-, heq⟩ | ⟨-, hj⟩ := tasks_put h
    · cases heq
      exact hfree
    · exact hs.unstored j id key' hj
  · intro handle key' h
    obtain ⟨id, hid, hhandle⟩ := hs.stored handle key' h
    exact ⟨id, hid.trans (Nat.lt_succ_self n), hhandle⟩

/-- A call stores its key under a handle that no other call has. -/
theorem Fresh.insert {n : ℕ} (hs : Fresh n w) (h : w.tasks i = .numbered id key) :
    Fresh n ({ w with keys := w.keys.insert (handleOf id) key }.put i .idle) := by
  have hothers : ∀ j id' key',
      ({ w with keys := w.keys.insert (handleOf id) key }.put i .idle).tasks j =
        .numbered id' key' → j ≠ i ∧ w.tasks j = .numbered id' key' := by
    intro j id' key' hj
    obtain ⟨-, ⟨⟩⟩ | hj := tasks_put hj
    exact hj
  refine ⟨hs.nextId, ?_, ?_, ?_, ?_⟩
  · intro j id' key' hj
    exact hs.below j id' key' (hothers j id' key' hj).2
  · intro j k id' key₁ key₂ hj hk
    exact hs.apart j k id' key₁ key₂ (hothers j id' key₁ hj).2 (hothers k id' key₂ hk).2
  · intro j id' key' hj
    obtain ⟨hne, hj⟩ := hothers j id' key' hj
    have hhandle : handleOf id' ≠ handleOf id := by
      intro heq
      rw [handleOf_inj heq] at hj
      exact hne (hs.apart j i id key' key hj h)
    exact (FiniteMap.get?_insert_ne hhandle).trans (hs.unstored j id' key' hj)
  · intro handle key' hget
    by_cases hhandle : handle = handleOf id
    · exact ⟨id, hs.below i id key h, hhandle⟩
    · exact hs.stored handle key' ((FiniteMap.get?_insert_ne hhandle).symm.trans hget)

theorem fresh_step (h : Step w e w')
    (hcount : (events ++ [e]).countP Event.isNumbered < 2 ^ 64)
    (hs : Fresh (events.countP Event.isNumbered) w) :
    Fresh ((events ++ [e]).countP Event.isNumbered) w' := by
  rw [List.countP_append, List.countP_singleton] at hcount ⊢
  cases h with
  | draw => exact hs.put (by rintro id key ⟨⟩)
  | fail => exact hs
  | number => exact hs.number hcount
  | insert h => exact hs.insert h
  | sign => exact hs
  | publicKey => exact hs

/-- A key that is stored stays. -/
theorem get?_step {n : ℕ} (h : Step w e w') (hs : Fresh n w)
    (hget : w.keys.get? handle = some key) : w'.keys.get? handle = some key := by
  cases h with
  | @insert i id key' h =>
    have hhandle : handle ≠ handleOf id := by
      rintro rfl
      rw [hs.unstored i id key' h] at hget
      cases hget
    exact (FiniteMap.get?_insert_ne hhandle).trans hget
  | _ => exact hget

theorem sign_eq_ok_iff {keys : Keys p} {data sig : List UInt8} :
    sign p keys handle data = .ok sig ↔
      ∃ key, keys.get? handle = some key ∧ sig = p.sigToBytes (p.sign key data) := by
  unfold sign
  cases keys.get? handle <;> simp [eq_comm]

theorem getPublicKey_eq_ok_iff {keys : Keys p} {der : List UInt8} :
    getPublicKey p keys handle = .ok ⟨der⟩ ↔
      ∃ key, keys.get? handle = some key ∧ p.publicKeyToDer (p.publicKeyOf key) = .ok der := by
  unfold getPublicKey
  cases hget : keys.get? handle with
  | none => simp
  | some key =>
    cases hder : p.publicKeyToDer (p.publicKeyOf key) with
    | error e => simp [hder]
    | ok der' => simp [hder]

/-- What a run has shown is the work of the keys that are stored. -/
structure Recorded (events : List Event) (w : World p) : Prop where
  generated : ∀ handle, handle ∈ generatedHandles events ↔ ∃ key, w.keys.get? handle = some key
  nodup : (generatedHandles events).Nodup
  signed : ∀ handle data sig, .signed handle data (.ok sig) ∈ events →
    ∃ key, w.keys.get? handle = some key ∧ sig = p.sigToBytes (p.sign key data)
  publicKey : ∀ handle der, .publicKey handle (.ok ⟨der⟩) ∈ events →
    ∃ key, w.keys.get? handle = some key ∧ p.publicKeyToDer (p.publicKeyOf key) = .ok der

theorem generatedHandles_concat (events : List Event) (e : Event) :
    generatedHandles (events ++ [e]) = generatedHandles events ++ generatedHandles [e] :=
  List.filterMap_append ..

theorem generated_step {n : ℕ} (h : Step w e w') (hfresh : Fresh n w) (hs : Recorded events w) :
    (∀ handle, handle ∈ generatedHandles (events ++ [e]) ↔
      ∃ key, w'.keys.get? handle = some key) ∧ (generatedHandles (events ++ [e])).Nodup := by
  rw [generatedHandles_concat]
  cases h with
  | @insert i id key h =>
    have hnew : handleOf id ∉ generatedHandles events := by
      rw [hs.generated, hfresh.unstored i id key h]
      rintro ⟨key', ⟨⟩⟩
    constructor
    · intro handle
      have hlast : generatedHandles [.generated i (handleOf id)] = [handleOf id] := rfl
      rw [hlast, List.mem_append, List.mem_singleton, hs.generated]
      change _ ↔ ∃ key', (w.keys.insert (handleOf id) key).get? handle = some key'
      rw [FiniteMap.get?_insert]
      by_cases hhandle : handle = handleOf id
      · simp [hhandle]
      · simp [hhandle]
    · exact List.nodup_append.mpr ⟨hs.nodup, List.nodup_singleton _, by
        rintro a ha b hb rfl
        rw [List.mem_singleton.mp hb] at ha
        exact hnew ha⟩
  | _ =>
    rw [show generatedHandles [_] = [] from rfl, List.append_nil]
    exact ⟨hs.generated, hs.nodup⟩

theorem recorded_step {n : ℕ} (h : Step w e w') (hfresh : Fresh n w) (hs : Recorded events w) :
    Recorded (events ++ [e]) w' := by
  obtain ⟨hgenerated, hnodup⟩ := generated_step h hfresh hs
  refine ⟨hgenerated, hnodup, ?_, ?_⟩
  · intro handle data sig hmem
    obtain hmem | hmem := List.mem_append.mp hmem
    · obtain ⟨key, hget, hsig⟩ := hs.signed handle data sig hmem
      exact ⟨key, get?_step h hfresh hget, hsig⟩
    · obtain rfl := List.mem_singleton.mp hmem
      generalize hresult : (Except.ok sig : Except CloudError (List UInt8)) = result at h
      cases h
      exact sign_eq_ok_iff.mp hresult.symm
  · intro handle der hmem
    obtain hmem | hmem := List.mem_append.mp hmem
    · obtain ⟨key, hget, hder⟩ := hs.publicKey handle der hmem
      exact ⟨key, get?_step h hfresh hget, hder⟩
    · obtain rfl := List.mem_singleton.mp hmem
      generalize hresult : (Except.ok ⟨der⟩ : Except CloudError PublicKey) = result at h
      cases h
      exact getPublicKey_eq_ok_iff.mp hresult.symm

theorem recorded_run (h : Trace Step (World.new p) events w)
    (hcount : events.countP Event.isNumbered < 2 ^ 64) :
    Fresh (events.countP Event.isNumbered) w ∧ Recorded events w := by
  induction h with
  | refl =>
    refine ⟨fresh_new, ?_, List.nodup_nil, by rintro handle data sig ⟨⟩, by rintro handle der ⟨⟩⟩
    intro handle
    simp [generatedHandles, World.new]
  | @snoc events e w w' hrun hstep ih =>
    have hbefore : events.countP Event.isNumbered < 2 ^ 64 := by
      rw [List.countP_append] at hcount
      omega
    obtain ⟨hfresh, hs⟩ := ih hbefore
    exact ⟨fresh_step hstep hcount hfresh, recorded_step hstep hfresh hs⟩

/-- A stored key signs so that its public key verifies. -/
theorem verify_sign (laws : p.Laws) {data der : List UInt8}
    (hder : p.publicKeyToDer (p.publicKeyOf key) = .ok der) :
    (ecdsaP256 p.toP256).verify ⟨.ecdsaP256Sha256, der⟩ data
      ⟨p.sigToBytes (p.sign key data)⟩ = .ok () := by
  have hkey : Mtc.EcdsaP256.parseVerifyingKey p.toP256 ⟨.ecdsaP256Sha256, der⟩ =
      .ok (p.publicKeyOf key) := by
    rw [Mtc.EcdsaP256.parseVerifyingKey, if_neg (fun h => h rfl)]
    simp only [laws.publicKeyFromDer _ _ hder]
  change Mtc.EcdsaP256.verify p.toP256 _ data _ = .ok ()
  rw [Mtc.EcdsaP256.verify, hkey, Outcome.ok_bind,
    if_neg (fun h => h (laws.length_sigToBytes _))]
  simp only [laws.sigFromSlice_sigToBytes, laws.verify_sign, if_true]

/-- The HSM's keys are for good, under every interleaving of the parts of its calls, as long as it
gives out fewer than 2 ^ 64 numbers. No handle is given out twice; a handle is known to `sign` from
the moment it was given out, and never before; and whatever was ever signed under a handle
verifies with whatever public key was ever fetched for it, before or after. -/
theorem signatures_verify (laws : p.Laws) (h : Trace Step (World.new p) events w)
    (hcount : events.countP Event.isNumbered < 2 ^ 64) :
    (generatedHandles events).Nodup ∧
    (∀ before handle data result after, events = before ++ .signed handle data result :: after →
      (handle ∈ generatedHandles before → ∃ sig, result = .ok sig) ∧
      (handle ∉ generatedHandles before → result = .error (.notFound handle.str))) ∧
    ∀ handle data sig der, .signed handle data (.ok sig) ∈ events →
      .publicKey handle (.ok ⟨der⟩) ∈ events →
      (ecdsaP256 p.toP256).verify ⟨.ecdsaP256Sha256, der⟩ data ⟨sig⟩ = .ok () := by
  obtain ⟨-, hs⟩ := recorded_run h hcount
  refine ⟨hs.nodup, ?_, ?_⟩
  · rintro before handle data result after rfl
    obtain ⟨v, hbefore, hrest⟩ := h.split
    obtain ⟨v', hone, -⟩ := (show Trace Step v ([_] ++ after) w from hrest).split
    obtain ⟨-, hv⟩ := recorded_run hbefore (by
      rw [List.countP_append] at hcount
      omega)
    have hstep := hone.step_of_singleton
    rw [hv.generated]
    cases hstep
    unfold sign
    cases v.keys.get? handle with
    | none => simp
    | some key => simp
  · intro handle data sig der hsigned hpublic
    obtain ⟨key, hget, rfl⟩ := hs.signed handle data sig hsigned
    obtain ⟨key', hget', hder⟩ := hs.publicKey handle der hpublic
    obtain rfl := Option.some.inj (hget.symm.trans hget')
    exact verify_sign laws hder

abbrev KeyBytes : Type := {b : List UInt8 // b.length = 32}

def keyBytes? (b : List UInt8) : Option KeyBytes := if h : b.length = 32 then some ⟨b, h⟩ else none

/-- A curve whose signatures are the key and a sum of the message, so that no other key and no
message with another sum verifies. -/
def sampleSign (key : KeyBytes) (data : List UInt8) : {b : List UInt8 // b.length = 64} :=
  ⟨key.1 ++ List.replicate 31 0 ++ [data.sum], by simp [key.2]⟩

def sampleCurve : Curve where
  SecretKey := KeyBytes
  PublicKey := KeyBytes
  Sig := {b : List UInt8 // b.length = 64}
  secretKeyFromSlice := keyBytes?
  publicKeyFromDer := keyBytes?
  sigFromSlice b := if h : b.length = 64 then some ⟨b, h⟩ else none
  trySign key data := some (sampleSign key data)
  sigToBytes sig := sig.1
  verify key data sig := decide (sig = sampleSign key data)
  sign := sampleSign
  publicKeyOf key := key
  publicKeyToDer key := .ok key.1

theorem sampleCurve_laws : sampleCurve.Laws where
  verify_sign key data := decide_eq_true (p := sampleSign key data = sampleSign key data) rfl
  sigFromSlice_sigToBytes sig := dif_pos sig.2
  length_sigToBytes sig := sig.2
  publicKeyFromDer key der h := by
    cases h
    exact dif_pos key.2

def sampleKey : KeyBytes := ⟨List.replicate 32 7, List.length_replicate⟩

/-- A key is drawn and its public key fetched before it signs; the signature is one of that message
only. -/
theorem signatures_verify_sample : ∃ events w sig, Trace Step (World.new sampleCurve) events w ∧
    .signed (handleOf 0) [1] (.ok sig) ∈ events ∧
    (ecdsaP256 sampleCurve.toP256).verify ⟨.ecdsaP256Sha256, sampleKey.1⟩ [1] ⟨sig⟩ = .ok () ∧
    (ecdsaP256 sampleCurve.toP256).verify ⟨.ecdsaP256Sha256, sampleKey.1⟩ [2] ⟨sig⟩ ≠ .ok () := by
  have hdrawn : randomSigningKey sampleCurve (fun _ => .ok (List.replicate 32 7)) =
      .ok sampleKey := rfl
  have h₁ : Trace Step (World.new sampleCurve) [.drawn 0] _ := .snoc .refl (.draw rfl hdrawn)
  have h₂ := h₁.snoc (.number (i := 0) rfl)
  have h₃ := h₂.snoc (.insert (i := 0) rfl)
  generalize hw : World.put _ 0 Task.idle = w at h₃
  have hget : w.keys.get? (handleOf 0) = some sampleKey := by
    rw [← hw]
    exact FiniteMap.get?_insert_self
  have hder : getPublicKey sampleCurve w.keys (handleOf 0) = .ok ⟨sampleKey.1⟩ :=
    getPublicKey_eq_ok_iff.mpr ⟨sampleKey, hget, rfl⟩
  have hsig : sign sampleCurve w.keys (handleOf 0) [1] = .ok (sampleSign sampleKey [1]).1 :=
    sign_eq_ok_iff.mpr ⟨sampleKey, hget, rfl⟩
  have hpublic : Step w (.publicKey (handleOf 0) (.ok ⟨sampleKey.1⟩)) w :=
    hder ▸ .publicKey (handleOf 0)
  have hsign : Step w (.signed (handleOf 0) [1] (.ok (sampleSign sampleKey [1]).1)) w :=
    hsig ▸ .sign (handleOf 0) [1]
  have hrun := (h₃.snoc hpublic).snoc hsign
  refine ⟨_, w, (sampleSign sampleKey [1]).1, hrun, by simp, ?_, by decide +kernel⟩
  exact (signatures_verify sampleCurve_laws hrun (by decide)).2.2 (handleOf 0) [1] _ sampleKey.1
    (by simp) (by simp)

/-! ### As the checkpoint signer's HSM -/

/-- The keys there may be while the signer's own key is stored. -/
abbrev Holding (p : Curve) (handle : KeyHandle) (key : p.SecretKey) : Type :=
  {keys : Keys p // keys.get? handle = some key}

def signer (p : Curve) (handle : KeyHandle) (key : p.SecretKey)
    (retry : CheckpointSigner.RetryPolicy) : Signer (Holding p handle key) where
  hsmSign keyHandle data keys := (sign p keys.1 keyHandle data, keys)
  clockSleep _ keys := keys
  retry := retry

/-- What the HSM signs for the signer verifies with the public key it gives out for it. -/
theorem verify_hsmSign {retry : CheckpointSigner.RetryPolicy} {der : List UInt8} (laws : p.Laws)
    (hder : p.publicKeyToDer (p.publicKeyOf key) = .ok der) :
    ∀ data keys signature, ((signer p handle key retry).hsmSign handle data keys).1 =
      .ok signature → (ecdsaP256 p.toP256).verify ⟨.ecdsaP256Sha256, der⟩ data ⟨signature⟩ =
        .ok () := by
  rintro data ⟨keys, hkeys⟩ signature hsign
  obtain ⟨key', hget, rfl⟩ := sign_eq_ok_iff.mp hsign
  obtain rfl := Option.some.inj (hkeys.symm.trans hget)
  exact verify_sign laws hder

end MemoryHsm

end Cloud
