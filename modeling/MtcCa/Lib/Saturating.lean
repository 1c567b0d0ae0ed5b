import Mathlib

/-! Saturating 64-bit arithmetic. -/
namespace Saturating

variable {n : ℕ}

/-- A number as a `u64`, at most its largest value. -/
def saturate (n : ℕ) : UInt64 := if n < 2 ^ 64 then UInt64.ofNat n else UInt64.ofNat (2 ^ 64 - 1)

def saturatingAdd (a b : UInt64) : UInt64 := saturate (a.toNat + b.toNat)

theorem toNat_saturate (n : ℕ) : (saturate n).toNat = min n (2 ^ 64 - 1) := by
  unfold saturate
  split
  · next h =>
    rw [UInt64.toNat_ofNat_of_lt' h]
    omega
  · next h =>
    rw [UInt64.toNat_ofNat_of_lt' (by decide)]
    omega

theorem toNat_saturatingAdd (a b : UInt64) :
    (saturatingAdd a b).toNat = min (a.toNat + b.toNat) (2 ^ 64 - 1) := toNat_saturate _

/-- Without overflow the sum is exact. -/
theorem toNat_saturate_of_lt (h : n < 2 ^ 64) : (saturate n).toNat = n := by
  rw [toNat_saturate]
  omega

theorem saturate_mono {m : ℕ} (h : m ≤ n) : saturate m ≤ saturate n := by
  rw [UInt64.le_iff_toNat_le, toNat_saturate, toNat_saturate]
  omega

theorem saturatingAdd_le_saturatingAdd {a b : UInt64} (h : a ≤ b) (c : UInt64) :
    saturatingAdd a c ≤ saturatingAdd b c :=
  saturate_mono (Nat.add_le_add_right (UInt64.le_iff_toNat_le.mp h) _)

end Saturating
