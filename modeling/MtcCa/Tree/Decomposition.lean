import MtcCa.Tree.Builder

/-! Decomposition of an entry range into aligned power-of-two subtrees
(`crates/mtc/src/tree/decomposition.rs`). Bounds are `u64` in the source. -/
namespace Mtc

/-- The half-open entry range `[start, stop)`. -/
structure Subtree where
  start : ℕ
  stop : ℕ
deriving DecidableEq

/-- The number of entries the range covers; an inverted range saturates to zero. -/
def Subtree.len (block : Subtree) : ℕ := block.stop - block.start

/-- `u64::trailing_zeros`. -/
def trailingZeros (n : ℕ) : ℕ :=
  if n = 0 then 64 else if n % 2 = 0 then trailingZeros (n / 2) + 1 else 0
termination_by n
decreasing_by omega

/-- The largest power of two at most `x`, for `x ≥ 1`. -/
def largestPow2Le (x : ℕ) : ℕ := 1 <<< x.log2

theorem largestPow2Le_eq (x : ℕ) : largestPow2Le x = 2 ^ x.log2 := by
  rw [largestPow2Le, Nat.one_shiftLeft]

/-- The step of the greedy loop at `i`: limited by the alignment of `i`, which does not
bind at zero, and by the remaining span. -/
def blockStep (i stop : ℕ) : ℕ :=
  let byAlignment := if i = 0 then 2 ^ 64 - 1 else 1 <<< trailingZeros i
  let bySpan := largestPow2Le (stop - i)
  min byAlignment bySpan

theorem blockStep_pos (i stop : ℕ) : 0 < blockStep i stop := by
  simp only [blockStep, largestPow2Le_eq, Nat.one_shiftLeft]
  apply Nat.lt_min.mpr
  refine ⟨?_, Nat.two_pow_pos _⟩
  split
  · norm_num
  · exact Nat.two_pow_pos _

/-- The canonical ordered decomposition of `[start, stop)` into aligned blocks. -/
def decomposeRange (start stop : ℕ) : List Subtree :=
  if start < stop then
    let step := blockStep start stop
    ⟨start, start + step⟩ :: decomposeRange (start + step) stop
  else []
termination_by stop - start
decreasing_by
  have := blockStep_pos start stop
  omega

/-- A power of two divides a positive number exactly up to its trailing zeros. -/
theorem two_pow_dvd_iff_le_trailingZeros {i e : ℕ} (hi : 0 < i) :
    2 ^ e ∣ i ↔ e ≤ trailingZeros i := by
  induction e generalizing i with
  | zero => simp
  | succ e ih =>
    rw [trailingZeros, if_neg (by omega)]
    split
    · rename_i heven
      have hhalf : i = 2 * (i / 2) := by omega
      rw [Nat.succ_le_succ_iff, ← ih (by omega)]
      nth_rewrite 1 [hhalf]
      rw [pow_succ, Nat.mul_comm (2 ^ e) 2]
      exact Nat.mul_dvd_mul_iff_left (by norm_num)
    · rename_i hodd
      constructor
      · intro hdvd
        have : 2 ∣ i := Dvd.dvd.trans (Dvd.intro_left _ (pow_succ 2 e).symm) hdvd
        omega
      · omega

theorem trailingZeros_two_pow (e : ℕ) : trailingZeros (2 ^ e) = e := by
  induction e with
  | zero => simp [trailingZeros]
  | succ e ih =>
    have hpos := Nat.two_pow_pos e
    rw [trailingZeros, if_neg (by omega), if_pos (by omega), pow_succ,
      Nat.mul_div_cancel _ (by omega), ih]

/-- Where the start is aligned to a power of two that covers the span, only the span binds. -/
theorem blockStep_of_aligned {i stop e : ℕ} (hlt : i < stop) (hdvd : 2 ^ e ∣ i)
    (hspan : stop - i ≤ 2 ^ e) (hstop : stop < 2 ^ 64) :
    blockStep i stop = 2 ^ (stop - i).log2 := by
  have hlog := Nat.log2_self_le (n := stop - i) (by omega)
  simp only [blockStep, largestPow2Le_eq, Nat.one_shiftLeft]
  apply Nat.min_eq_right
  split
  · omega
  · have hle : e ≤ trailingZeros i := (two_pow_dvd_iff_le_trailingZeros (by omega)).mp hdvd
    have hpow := Nat.pow_le_pow_right (n := 2) (by omega) hle
    omega

end Mtc
