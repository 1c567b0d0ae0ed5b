import MtcCa.Checkpoint.Signer
import MtcCa.Lib.Checked

/-! The retry loop against a script of HSM outcomes: the calls and the sleeps it makes, and its
arithmetic in machine words (`crates/checkpoint-signer/src/signer.rs`,
`crates/checkpoint-signer/src/retry.rs`). -/
namespace CheckpointSigner

open Cloud

/-! ### The schedule -/

variable {j k : ℕ}

theorem RetryPolicy.backoffFor_mono (p : RetryPolicy) (h : j ≤ k) :
    (p.backoffFor j).nanos ≤ (p.backoffFor k).nanos := by
  have hpow : 2 ^ min j 63 ≤ 2 ^ min k 63 :=
    Nat.pow_le_pow_right (by decide) (min_le_min_right 63 h)
  have hmul := Nat.mul_le_mul_left p.baseBackoff.nanos hpow
  exact min_le_min_right _ (min_le_min_right _ (min_le_min_right _ hmul))

theorem RetryPolicy.backoffFor_le (p : RetryPolicy) (k : ℕ) :
    (p.backoffFor k).nanos ≤ p.maxBackoff.nanos :=
  (min_le_left _ _).trans (min_le_right _ _)

/-- While the doublings are not clamped and the cap fits a `u64`, the delay is the doubled base
up to the cap. -/
theorem RetryPolicy.backoffFor_eq (p : RetryPolicy) (hk : k ≤ 63)
    (hmax : p.maxBackoff.nanos < 2 ^ 64) :
    (p.backoffFor k).nanos = min (p.baseBackoff.nanos * 2 ^ k) p.maxBackoff.nanos := by
  rw [RetryPolicy.backoffFor, min_eq_left hk]
  dsimp only
  omega

/-! ### The schedule and the loop in machine words -/

/-- A `Duration` as it is stored: whole seconds, and less than a second of nanoseconds. -/
structure StoredDuration where
  secs : UInt64
  subsecNanos : UInt32
  subsecNanos_lt : subsecNanos.toNat < 10 ^ 9

namespace StoredDuration

def toDuration (d : StoredDuration) : Duration :=
  ⟨d.secs.toNat * 10 ^ 9 + d.subsecNanos.toNat⟩

/-- `Duration::as_nanos`, in `u128`. -/
def asNanos (d : StoredDuration) : Option ℕ := do
  let nanos ← Checked.mul 128 d.secs.toNat (10 ^ 9)
  Checked.add 128 nanos d.subsecNanos.toNat

theorem asNanos_eq (d : StoredDuration) : d.asNanos = some d.toDuration.nanos := by
  have hsecs := d.secs.toNat_lt
  have hsubsec := d.subsecNanos_lt
  rw [asNanos, Checked.mul_eq (by omega), Option.bind_eq_bind, Option.bind_some,
    Checked.add_eq (by omega), toDuration]

end StoredDuration

structure StoredPolicy where
  maxRetries : UInt32
  baseBackoff : StoredDuration
  maxBackoff : StoredDuration

namespace StoredPolicy

def toPolicy (p : StoredPolicy) : RetryPolicy :=
  ⟨p.maxRetries, p.baseBackoff.toDuration, p.maxBackoff.toDuration⟩

/-- The schedule as the code computes it, `none` where an operation would overflow. -/
def backoffFor (p : StoredPolicy) (retryIndex : ℕ) : Option Duration := do
  let baseNanos ← p.baseBackoff.asNanos
  let doublings ← Checked.shiftLeft 128 1 (min retryIndex 63)
  let scaled := min (baseNanos * doublings) (2 ^ 128 - 1)
  let maxNanos ← p.maxBackoff.asNanos
  let capped := min scaled maxNanos
  some ⟨(Checked.narrow 64 capped).getD (2 ^ 64 - 1)⟩

theorem backoffFor_eq (p : StoredPolicy) (k : ℕ) :
    p.backoffFor k = some (p.toPolicy.backoffFor k) := by
  have hnarrow (n : ℕ) : (Checked.narrow 64 n).getD (2 ^ 64 - 1) = min n (2 ^ 64 - 1) := by
    rw [Checked.narrow]
    split
    · rw [Option.getD_some]
      omega
    · rw [Option.getD_none]
      omega
  have hshift : Checked.shiftLeft 128 1 (min k 63) = some (2 ^ min k 63) :=
    Checked.shiftLeft_one (by omega)
  simp only [backoffFor, StoredDuration.asNanos_eq, hshift, Option.bind_eq_bind,
    Option.bind_some, hnarrow]
  rfl

/-- The delay before a retry, if the counter can be increased for it. -/
def backoffBefore (p : StoredPolicy) (retries : ℕ) : Option Duration := do
  let backoff ← p.backoffFor retries
  let _ ← Checked.add 32 retries 1
  some backoff

theorem backoffBefore_eq (p : StoredPolicy) (h : k < p.maxRetries.toNat) :
    p.backoffBefore k = some (p.toPolicy.backoffFor k) := by
  have hlt := p.maxRetries.toNat_lt
  rw [backoffBefore, backoffFor_eq, Checked.add_eq (by omega)]
  rfl

end StoredPolicy

namespace Signer

variable {World : Type} (s : Signer World)

/-- The retry loop where the delay before a retry may be undefined, and the loop with it. -/
def signWithRetryChecked (maxRetries : UInt32) (backoffBefore : ℕ → Option Duration)
    (keyHandle : KeyHandle) (input : List UInt8) (retries : ℕ) (calls : List SignCall)
    (world : World) : Option (Run World (List UInt8)) :=
  match s.hsmSign keyHandle input world with
  | (.ok signature, world) =>
    some ⟨.ok signature, calls ++ [⟨keyHandle, input, .ok signature⟩], world⟩
  | (.error error, world) =>
    let calls := calls ++ [⟨keyHandle, input, .error error⟩]
    let attempts := min (retries + 1) (2 ^ 32 - 1)
    if isRetryable error ∧ retries < maxRetries.toNat then
      match backoffBefore retries with
      | some backoff =>
        signWithRetryChecked maxRetries backoffBefore keyHandle input (retries + 1) calls
          (s.clockSleep backoff world)
      | none => none
    else some ⟨.error (.hsmSigningFailed attempts error), calls, world⟩
termination_by maxRetries.toNat - retries

/-- No operation of the loop overflows. -/
theorem signWithRetryChecked_eq (policy : StoredPolicy) (h : s.retry = policy.toPolicy)
    (keyHandle : KeyHandle) (input : List UInt8) (retries : ℕ) (calls : List SignCall)
    (world : World) :
    s.signWithRetryChecked policy.maxRetries policy.backoffBefore keyHandle input retries calls
        world =
      some (s.signWithRetry keyHandle input retries calls world) := by
  have hmax : s.retry.maxRetries = policy.maxRetries := by
    rw [h]
    rfl
  fun_induction s.signWithRetry keyHandle input retries calls world with
  | case1 retries calls world signature world' hsign =>
    rw [signWithRetryChecked, hsign]
  | case2 retries calls₀ world error world' hsign calls hretry ih =>
    rw [hmax] at hretry
    rw [signWithRetryChecked, hsign]
    dsimp only
    rw [if_pos hretry, StoredPolicy.backoffBefore_eq policy hretry.2, ← h]
    exact ih
  | case3 retries calls₀ world error world' hsign calls attempts hretry =>
    rw [hmax] at hretry
    rw [signWithRetryChecked, hsign]
    dsimp only
    rw [if_neg hretry]

end Signer

/-! ### The run of the loop -/

/-- What the HSM and the clock see of a signing. -/
inductive SignEvent where
  | call (call : SignCall)
  | sleep (d : Duration)

def SignEvent.isCall : SignEvent → Bool
  | .call _ => true
  | .sleep _ => false

/-- A signer whose HSM gives the outcomes of a script one after the other, over a world that
records every call and every sleep. -/
def scriptedSigner (outcomes : ℕ → Except CloudError (List UInt8)) (retry : RetryPolicy) :
    Signer (List SignEvent) where
  hsmSign keyHandle data log :=
    let answer := outcomes (log.countP SignEvent.isCall)
    (answer, log ++ [.call ⟨keyHandle, data, answer⟩])
  clockSleep d log := log ++ [.sleep d]
  retry := retry

/-- An outcome that may be retried. -/
def Transient (outcome : Except CloudError (List UInt8)) : Prop :=
  ∃ error, outcome = .error error ∧ isRetryable error

variable {outcomes : ℕ → Except CloudError (List UInt8)} {retry : RetryPolicy}
  {keyHandle : KeyHandle} {input : List UInt8}

/-- The call that gets an outcome of the script. -/
def scriptedCall (outcomes : ℕ → Except CloudError (List UInt8)) (keyHandle : KeyHandle)
    (input : List UInt8) (k : ℕ) : SignCall :=
  ⟨keyHandle, input, outcomes k⟩

/-- A call and the sleep before the next one. -/
def retriedCall (outcomes : ℕ → Except CloudError (List UInt8)) (retry : RetryPolicy)
    (keyHandle : KeyHandle) (input : List UInt8) (k : ℕ) : List SignEvent :=
  [.call (scriptedCall outcomes keyHandle input k), .sleep (retry.backoffFor k)]

/-- A run whose last call is the one with number `n`. -/
structure RunsTo (outcomes : ℕ → Except CloudError (List UInt8)) (retry : RetryPolicy)
    (keyHandle : KeyHandle) (input : List UInt8) (retries n : ℕ) (calls : List SignCall)
    (log : List SignEvent) (run : Run (List SignEvent) (List UInt8)) : Prop where
  from_le : retries ≤ n
  le_max : n ≤ retry.maxRetries.toNat
  transient : ∀ k, retries ≤ k → k < n → Transient (outcomes k)
  stops : Transient (outcomes n) → n = retry.maxRetries.toNat
  result : run.result = (outcomes n).mapError (.hsmSigningFailed (min (n + 1) (2 ^ 32 - 1)))
  calls_eq : run.calls = calls ++
    (List.range' retries (n + 1 - retries)).map (scriptedCall outcomes keyHandle input)
  world_eq : run.world = log ++
    (List.range' retries (n - retries)).flatMap (retriedCall outcomes retry keyHandle input) ++
    [.call (scriptedCall outcomes keyHandle input n)]

/-- A call that is retried comes before those of the rest of the run. -/
theorem RunsTo.cons {retries n : ℕ} {calls : List SignCall} {log : List SignEvent}
    {run : Run (List SignEvent) (List UInt8)} (ht : Transient (outcomes retries))
    (h : RunsTo outcomes retry keyHandle input (retries + 1) n
      (calls ++ [scriptedCall outcomes keyHandle input retries])
      (log ++ retriedCall outcomes retry keyHandle input retries) run) :
    RunsTo outcomes retry keyHandle input retries n calls log run where
  from_le := Nat.le_of_succ_le h.from_le
  le_max := h.le_max
  transient := by
    intro k hk hkn
    rcases Nat.eq_or_lt_of_le hk with rfl | hlt
    · exact ht
    · exact h.transient k hlt hkn
  stops := h.stops
  result := h.result
  calls_eq := by
    have hle := h.from_le
    have hlen : n + 1 - retries = (n + 1 - (retries + 1)) + 1 := by omega
    rw [h.calls_eq, hlen, List.range'_succ, List.map_cons, List.append_assoc]
    rfl
  world_eq := by
    have hle := h.from_le
    have hlen : n - retries = (n - (retries + 1)) + 1 := by omega
    rw [h.world_eq, hlen, List.range'_succ, List.flatMap_cons]
    simp only [List.append_assoc]

/-- A run that ends with its first call. -/
theorem RunsTo.last {retries : ℕ} {calls : List SignCall} {log : List SignEvent}
    (hle : retries ≤ retry.maxRetries.toNat)
    (hstop : Transient (outcomes retries) → retries = retry.maxRetries.toNat) :
    RunsTo outcomes retry keyHandle input retries retries calls log
      ⟨(outcomes retries).mapError (.hsmSigningFailed (min (retries + 1) (2 ^ 32 - 1))),
        calls ++ [scriptedCall outcomes keyHandle input retries],
        log ++ [.call (scriptedCall outcomes keyHandle input retries)]⟩ where
  from_le := le_rfl
  le_max := hle
  transient := by
    intro k hk hkn
    omega
  stops := hstop
  result := rfl
  calls_eq := by
    rw [Nat.add_sub_cancel_left]
    rfl
  world_eq := by
    rw [Nat.sub_self, List.range'_zero, List.flatMap_nil, List.append_nil]

theorem not_transient_of_ok {outcome : Except CloudError (List UInt8)} {signature : List UInt8}
    (h : outcome = .ok signature) : ¬ Transient outcome := by
  rintro ⟨e, he, -⟩
  rw [h] at he
  cases he

/-- Where the loop goes on after as many calls as it made retries, it makes some last call. -/
theorem signWithRetry_runsTo (retries : ℕ) (calls : List SignCall) (log : List SignEvent)
    (hle : retries ≤ retry.maxRetries.toNat) (hlog : log.countP SignEvent.isCall = retries) :
    ∃ n, RunsTo outcomes retry keyHandle input retries n calls log
      ((scriptedSigner outcomes retry).signWithRetry keyHandle input retries calls log) := by
  fun_induction (scriptedSigner outcomes retry).signWithRetry keyHandle input retries calls log with
  | case1 retries calls log signature log' hsign =>
    obtain ⟨hok, rfl⟩ := Prod.mk.inj hsign
    rw [hlog] at hok
    have hlast : RunsTo outcomes retry keyHandle input retries retries calls log _ :=
      RunsTo.last hle (fun ht => (not_transient_of_ok hok ht).elim)
    rw [scriptedCall, hok] at hlast
    rw [hlog, hok]
    exact ⟨retries, hlast⟩
  | case2 retries calls₀ log error log' hsign calls hretry ih =>
    obtain ⟨herror, rfl⟩ := Prod.mk.inj hsign
    rw [hlog] at herror
    have hworld : (scriptedSigner outcomes retry).clockSleep (retry.backoffFor retries)
        (log ++ [.call ⟨keyHandle, input, outcomes (log.countP SignEvent.isCall)⟩]) =
        log ++ retriedCall outcomes retry keyHandle input retries := by
      rw [hlog]
      exact List.append_assoc log _ _
    have hcount : (log ++ retriedCall outcomes retry keyHandle input retries).countP
        SignEvent.isCall = retries + 1 := by
      rw [List.countP_append, hlog]
      rfl
    have hcalls : calls = calls₀ ++ [scriptedCall outcomes keyHandle input retries] := by
      rw [scriptedCall, herror]
    obtain ⟨n, hn⟩ := ih hretry.2 (by rw [← hcount, ← hworld]; rfl)
    refine ⟨n, RunsTo.cons ⟨error, herror, hretry.1⟩ ?_⟩
    rw [← hcalls, ← hworld]
    exact hn
  | case3 retries calls₀ log error log' hsign calls attempts hretry =>
    obtain ⟨herror, rfl⟩ := Prod.mk.inj hsign
    rw [hlog] at herror
    have hstop : Transient (outcomes retries) → retries = retry.maxRetries.toNat := by
      rintro ⟨e, he, hr⟩
      rw [herror] at he
      cases he
      by_contra hne
      exact hretry ⟨hr, lt_of_le_of_ne hle hne⟩
    have hlast : RunsTo outcomes retry keyHandle input retries retries calls₀ log _ :=
      RunsTo.last hle hstop
    rw [scriptedCall, herror] at hlast
    rw [hlog, herror]
    exact ⟨retries, hlast⟩

/-- The loop calls the HSM up to the first outcome that may not be retried, or as often as the
policy allows; it returns that outcome with the number of calls; it sleeps for the scheduled
delay between two calls, the delays grow up to the cap, and no operation overflows. -/
theorem signWithRetry_correct (policy : StoredPolicy)
    (outcomes : ℕ → Except CloudError (List UInt8)) (keyHandle : KeyHandle)
    (input : List UInt8) :
    let retry := policy.toPolicy
    let s := scriptedSigner outcomes retry
    let run := s.signWithRetry keyHandle input 0 [] []
    (∃ n, n ≤ retry.maxRetries.toNat ∧
      (∀ k < n, Transient (outcomes k)) ∧
      (Transient (outcomes n) → n = retry.maxRetries.toNat) ∧
      run.calls = (List.range (n + 1)).map (scriptedCall outcomes keyHandle input) ∧
      run.result = (outcomes n).mapError (.hsmSigningFailed (min (n + 1) (2 ^ 32 - 1))) ∧
      run.world = (List.range n).flatMap (retriedCall outcomes retry keyHandle input) ++
        [.call (scriptedCall outcomes keyHandle input n)]) ∧
    ((∀ j k, j ≤ k → (retry.backoffFor j).nanos ≤ (retry.backoffFor k).nanos) ∧
      (∀ k, (retry.backoffFor k).nanos ≤ retry.maxBackoff.nanos) ∧
      ∀ k ≤ 63, retry.maxBackoff.nanos < 2 ^ 64 →
        (retry.backoffFor k).nanos = min (retry.baseBackoff.nanos * 2 ^ k) retry.maxBackoff.nanos) ∧
    ((∀ k, policy.backoffFor k = some (retry.backoffFor k)) ∧
      s.signWithRetryChecked policy.maxRetries policy.backoffBefore keyHandle input 0 [] [] =
        some run) := by
  intro retry s run
  refine ⟨?_, ⟨?_, ?_, ?_⟩, ?_, ?_⟩
  · obtain ⟨n, h⟩ : ∃ n, RunsTo outcomes retry keyHandle input 0 n [] [] run :=
      signWithRetry_runsTo 0 [] [] (Nat.zero_le _) rfl
    refine ⟨n, h.le_max, fun k hk => h.transient k (Nat.zero_le k) hk, h.stops, ?_, h.result, ?_⟩
    · have hcalls := h.calls_eq
      rwa [Nat.sub_zero, ← List.range_eq_range', List.nil_append] at hcalls
    · have hworld := h.world_eq
      rwa [Nat.sub_zero, ← List.range_eq_range', List.nil_append] at hworld
  · exact fun j k h => retry.backoffFor_mono h
  · exact retry.backoffFor_le
  · exact fun k hk hmax => retry.backoffFor_eq hk hmax
  · exact policy.backoffFor_eq
  · exact s.signWithRetryChecked_eq policy rfl keyHandle input 0 [] []

end CheckpointSigner
