import MtcCa.Intake.Batch
import MtcCa.Lib.Outcome

/-! Retention windows from the service configuration (`crates/retention/src/config.rs`,
`crates/retention/src/duration.rs`, `crates/retention/src/policy.rs`). -/
namespace Retention

open CaService (checkedAdd checkedAdd_eq_some)
open Cloud (Duration SystemTime)
open Outcome

/-- A strictly positive window. -/
structure RetentionDuration where
  duration : Duration
  pos : 0 < duration.nanos
deriving DecidableEq

inductive RetentionConfigError where
  | nonPositiveDays (days : Int64)
  | nonPositiveMinutes (minutes : Int64)
  | durationOverflow (unit : String) (value : Int64)
deriving DecidableEq

def secsPerDay : Int64 := 24 * 60 * 60

def secsPerMinute : Int64 := 60

def checkedMul (a b : Int64) : Option Int64 :=
  if -2 ^ 63 ≤ a.toInt * b.toInt ∧ a.toInt * b.toInt < 2 ^ 63 then
    some (Int64.ofInt (a.toInt * b.toInt))
  else none

theorem checkedMul_eq_some_iff {a b c : Int64} : checkedMul a b = some c ↔
    c.toInt = a.toInt * b.toInt := by
  unfold checkedMul
  split
  · next h =>
    rw [Option.some.injEq, ← Int64.toInt_inj, Int64.toInt_ofInt_of_le h.1 h.2]
    exact eq_comm
  · next h =>
    simp only [reduceCtorEq, false_iff]
    intro hc
    exact h (hc ▸ ⟨c.le_toInt, c.toInt_lt⟩)

def positiveI64ToU64 (secs : Int64) : UInt64 :=
  if 0 ≤ secs.toInt then UInt64.ofNat secs.toInt.toNat else UInt64.ofNat (2 ^ 64 - 1)

theorem toNat_positiveI64ToU64 {secs : Int64} (h : 0 ≤ secs.toInt) :
    ((positiveI64ToU64 secs).toNat : ℤ) = secs.toInt := by
  have hlt := secs.toInt_lt
  have hfits : secs.toInt.toNat < 2 ^ 64 := by omega
  rw [positiveI64ToU64, if_pos h, UInt64.toNat_ofNat_of_lt' hfits, Int.toNat_of_nonneg h]

/-- A whole number of seconds. -/
def fromSecs (secs : UInt64) : Duration := ⟨secs.toNat * 10 ^ 9⟩

theorem pos_of_checkedMul {value unit secs : Int64} (hvalue : ¬ value ≤ 0)
    (hunit : 0 < unit.toInt) (h : checkedMul value unit = some secs) :
    0 < (fromSecs (positiveI64ToU64 secs)).nanos := by
  have hpos : 0 < value.toInt * unit.toInt := by
    rw [Int64.le_iff_toInt_le, Int64.toInt_zero, not_le] at hvalue
    exact mul_pos hvalue hunit
  rw [← checkedMul_eq_some_iff.mp h] at hpos
  have hnat := toNat_positiveI64ToU64 hpos.le
  simp only [fromSecs]
  omega

namespace RetentionDuration

/-- A window of so many units, refused where it is not positive or too long for seconds. -/
def fromUnits (nonPositive : Int64 → RetentionConfigError) (field : String) (unit : Int64)
    (hunit : 0 < unit.toInt) (value : Int64) : Except RetentionConfigError RetentionDuration :=
  if hvalue : value ≤ 0 then .error (nonPositive value)
  else
    match h : checkedMul value unit with
    | none => .error (.durationOverflow field value)
    | some secs => .ok ⟨fromSecs (positiveI64ToU64 secs), pos_of_checkedMul hvalue hunit h⟩

theorem secsPerDay_pos : 0 < secsPerDay.toInt := by decide

theorem secsPerMinute_pos : 0 < secsPerMinute.toInt := by decide

def fromDays : Int64 → Except RetentionConfigError RetentionDuration :=
  fromUnits .nonPositiveDays "retention_days" secsPerDay secsPerDay_pos

def fromMinutes : Int64 → Except RetentionConfigError RetentionDuration :=
  fromUnits .nonPositiveMinutes "dev_override_minutes" secsPerMinute secsPerMinute_pos

/-- An error names the value, and the field or the unit it is about. -/
theorem fromUnits_eq_error {nonPositive : Int64 → RetentionConfigError} {field : String}
    {unit value : Int64} {hunit : 0 < unit.toInt} {e : RetentionConfigError}
    (h : fromUnits nonPositive field unit hunit value = .error e) :
    ¬ (0 < value.toInt ∧ value.toInt * unit.toInt < 2 ^ 63) ∧
      (e = nonPositive value ∨ e = .durationOverflow field value) := by
  unfold fromUnits at h
  split at h
  · next hle =>
    rw [Int64.le_iff_toInt_le, Int64.toInt_zero] at hle
    cases h
    exact ⟨fun hfits => absurd hfits.1 (not_lt.mpr hle), Or.inl rfl⟩
  · next hlt =>
    rw [Int64.le_iff_toInt_le, Int64.toInt_zero, not_le] at hlt
    split at h
    · next hnone =>
      cases h
      refine ⟨?_, Or.inr rfl⟩
      rintro ⟨hpos, hfits⟩
      have hproduct := mul_pos hpos hunit
      rw [checkedMul, if_pos ⟨by linarith, hfits⟩] at hnone
      cases hnone
    · cases h

end RetentionDuration

/-! ### The configuration -/

def defaultRetentionDays : Int64 := 7 * 365

/-- What the service configuration says. -/
structure RetentionPolicyConfig where
  retentionDays : Int64 := defaultRetentionDays
  devOverrideMinutes : Option Int64 := none
deriving DecidableEq

structure RetentionPolicy where
  entryTileDuration : RetentionDuration
deriving DecidableEq

def RetentionPolicy.fromDuration (entryTileDuration : RetentionDuration) : RetentionPolicy :=
  ⟨entryTileDuration⟩

namespace RetentionPolicyConfig

/-- The days are checked also where the override makes up the window. -/
def build (config : RetentionPolicyConfig) : Except RetentionConfigError RetentionPolicy := do
  let base ← RetentionDuration.fromDays config.retentionDays
  let effective ← match config.devOverrideMinutes with
    | some minutes => RetentionDuration.fromMinutes minutes
    | none => .ok base
  .ok (RetentionPolicy.fromDuration effective)

/-- The window that the configuration asks for, in seconds. -/
def window (config : RetentionPolicyConfig) : ℤ :=
  match config.devOverrideMinutes with
  | some minutes => minutes.toInt * 60
  | none => config.retentionDays.toInt * 86400

/-- A number of units that makes a window: positive, and its seconds fit an `i64`. -/
def Fits (value : Int64) (secsPerUnit : ℤ) : Prop :=
  0 < value.toInt ∧ value.toInt * secsPerUnit < 2 ^ 63

theorem toInt_secsPerDay : secsPerDay.toInt = 86400 := by decide

theorem toInt_secsPerMinute : secsPerMinute.toInt = 60 := by decide

/-- A refused configuration is refused for a value it holds, by the name of its field. -/
theorem build_eq_error {config : RetentionPolicyConfig} {e : RetentionConfigError}
    (h : config.build = .error e) :
    ¬ Fits config.retentionDays 86400 ∧ (e = .nonPositiveDays config.retentionDays ∨
        e = .durationOverflow "retention_days" config.retentionDays) ∨
      ∃ minutes, config.devOverrideMinutes = some minutes ∧ ¬ Fits minutes 60 ∧
        (e = .nonPositiveMinutes minutes ∨
          e = .durationOverflow "dev_override_minutes" minutes) := by
  obtain ⟨days, override⟩ := config
  obtain hdays | ⟨base, -, hrest⟩ := bind_eq_error_iff.mp h
  · have hrefused := RetentionDuration.fromUnits_eq_error hdays
    rw [toInt_secsPerDay] at hrefused
    exact Or.inl hrefused
  · cases override with
    | none => cases hrest
    | some minutes =>
      obtain hminutes | ⟨d, -, hok⟩ := bind_eq_error_iff.mp hrest
      · have hrefused := RetentionDuration.fromUnits_eq_error hminutes
        rw [toInt_secsPerMinute] at hrefused
        exact Or.inr ⟨minutes, rfl, hrefused⟩
      · cases hok

end RetentionPolicyConfig

/-! ### Until when an object is retained -/

/-- The storage classes that are retained. -/
inductive ObjectClass where
  | entry
  | tile
  | pruningCheckpoint
deriving DecidableEq

/-- The last second of the year 9999. -/
def indefiniteRetention : SystemTime := ⟨253402300799 * 10 ^ 9⟩

inductive RetentionError where
  | overflow (writeTime : SystemTime) (duration : Duration)
deriving DecidableEq

def RetentionPolicy.retainUntil (policy : RetentionPolicy) (cls : ObjectClass)
    (writeTime : SystemTime) : Except RetentionError SystemTime :=
  match cls with
  | .pruningCheckpoint => .ok indefiniteRetention
  | .entry | .tile =>
    let duration := policy.entryTileDuration.duration
    match checkedAdd writeTime duration with
    | some t => .ok t
    | none => .error (.overflow writeTime duration)

/-- Until when an object of a class written at some time is to be retained. -/
def RetentionPolicyConfig.due (config : RetentionPolicyConfig) (cls : ObjectClass)
    (writeTime : SystemTime) : SystemTime :=
  match cls with
  | .pruningCheckpoint => ⟨253402300799 * 10 ^ 9⟩
  | .entry | .tile => ⟨writeTime.nanos + config.window * 10 ^ 9⟩

variable {config : RetentionPolicyConfig} {policy : RetentionPolicy} {cls : ObjectClass}
  {writeTime T : SystemTime}

end Retention
