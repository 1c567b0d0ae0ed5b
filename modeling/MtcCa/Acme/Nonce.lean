import MtcCa.Cloud.Types
import MtcCa.Lib.FiniteMap
import MtcCa.Acme.Problem

/-! The registry of single-use nonces (`crates/acme-core/src/nonce.rs`). The clock reading and
what the random generator returns are arguments. -/
namespace Acme

open Cloud (SystemTime)

structure Nonce where
  str : String
deriving DecidableEq

/-- Default nonce lifetime: five minutes. -/
def defaultNonceTtlMillis : UInt64 := 5 * 60 * 1000

/-- `t + Duration::from_millis(millis)`. -/
def addMillis (t : SystemTime) (millis : UInt64) : SystemTime := ⟨t.nanos + millis.toNat * 10 ^ 6⟩

structure NonceStore where
  ttlMillis : UInt64
  issued : FiniteMap Nonce SystemTime

namespace NonceStore

variable {store : NonceStore} {now d : SystemTime} {drawn : Except String Nonce} {n m : Nonce}

def new (ttlMillis : UInt64) : NonceStore := ⟨ttlMillis, .empty⟩

def pruneExpired (store : NonceStore) (now : SystemTime) : NonceStore :=
  { store with issued := store.issued.filter (fun _ deadline => decide (now ≤ deadline)) }

/-- Issues the nonce the generator drew, spendable until `now` plus the lifetime. -/
def issue (store : NonceStore) (now : SystemTime) (drawn : Except String Nonce) :
    Except AcmeError Nonce × NonceStore :=
  let store := store.pruneExpired now
  match drawn with
  | .error e => (.error (.internal ("os rng: " ++ e)), store)
  | .ok nonce =>
    (.ok nonce, { store with issued := store.issued.insert nonce (addMillis now store.ttlMillis) })

/-- Spends `nonce`; an expired one is removed like any other. -/
def consume (store : NonceStore) (nonce : Nonce) (now : SystemTime) :
    Except AcmeError Unit × NonceStore :=
  let removed := { store with issued := store.issued.erase nonce }
  match store.issued.get? nonce with
  | some deadline => if now ≤ deadline then (.ok (), removed) else (.error .badNonce, removed)
  | none => (.error .badNonce, removed)

/-- Number of unspent, unpruned nonces. -/
def outstanding (store : NonceStore) : ℕ := store.issued.keys.card

theorem get?_pruneExpired :
    (store.pruneExpired now).issued.get? n = some d ↔ store.issued.get? n = some d ∧ now ≤ d := by
  rw [pruneExpired, FiniteMap.get?_filter_eq_some_iff, decide_eq_true_iff]

@[simp] theorem ttlMillis_issue : (store.issue now drawn).2.ttlMillis = store.ttlMillis := by
  cases drawn <;> rfl

@[simp] theorem ttlMillis_consume : (store.consume n now).2.ttlMillis = store.ttlMillis := by
  unfold consume
  dsimp only
  split
  · split <;> rfl
  · rfl

/-- What an issue leaves in the store: the new nonce, and of the old ones those in time. -/
theorem get?_issue_ok : (store.issue now (.ok m)).2.issued.get? n = some d ↔
    if n = m then d = addMillis now store.ttlMillis
    else store.issued.get? n = some d ∧ now ≤ d := by
  change ((store.pruneExpired now).issued.insert m (addMillis now store.ttlMillis)).get? n =
    some d ↔ _
  rw [FiniteMap.get?_insert]
  split
  · rw [Option.some_inj, eq_comm]
  · exact get?_pruneExpired

theorem get?_issue_error {e : String} : (store.issue now (.error e)).2.issued.get? n = some d ↔
    store.issued.get? n = some d ∧ now ≤ d := get?_pruneExpired

theorem consume_snd : (store.consume n now).2 = { store with issued := store.issued.erase n } := by
  unfold consume
  dsimp only
  split
  · split <;> rfl
  · rfl

/-- The nonce check passes exactly for a registered nonce that is in time. -/
theorem consume_fst : (store.consume n now).1 = .ok () ↔
    ∃ d, store.issued.get? n = some d ∧ now ≤ d := by
  unfold consume
  cases h : store.issued.get? n with
  | none => simp
  | some d => by_cases hd : now ≤ d <;> simp [hd]

/-- A refused nonce is always refused with the same error. -/
theorem consume_fst_eq_or (store : NonceStore) (n : Nonce) (now : SystemTime) :
    (store.consume n now).1 = .ok () ∨
    (store.consume n now).1 = .error .badNonce := by
  unfold consume
  cases store.issued.get? n with
  | none => exact .inr rfl
  | some d => by_cases hd : now ≤ d <;> simp [hd]

end NonceStore

end Acme
