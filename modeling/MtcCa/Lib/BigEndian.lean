import Mathlib

/-! Fixed-width big-endian numbers. -/
namespace BigEndian

variable {w n : ℕ} {l : List UInt8}

/-- The low `w` bytes of a number, the most significant first. -/
def encode : ℕ → ℕ → List UInt8
  | 0, _ => []
  | w + 1, n => encode w (n / 256) ++ [UInt8.ofNat n]

def decode (l : List UInt8) : ℕ :=
  l.foldl (fun n b => 256 * n + b.toNat) 0

theorem decode_concat (b : UInt8) : decode (l ++ [b]) = 256 * decode l + b.toNat := by
  simp [decode, List.foldl_append]

@[simp] theorem length_encode : (encode w n).length = w := by
  induction w generalizing n with
  | zero => rfl
  | succ w ih => rw [encode, List.length_append, ih, List.length_singleton]

theorem decode_encode (h : n < 256 ^ w) : decode (encode w n) = n := by
  induction w generalizing n with
  | zero =>
    have hn : n = 0 := by simpa using h
    rw [hn]
    rfl
  | succ w ih =>
    rw [encode, decode_concat, ih (Nat.div_lt_of_lt_mul (by rwa [pow_succ'] at h)),
      UInt8.toNat_ofNat']
    omega

theorem encode_inj {n' : ℕ} (h : n < 256 ^ w) (h' : n' < 256 ^ w)
    (heq : encode w n = encode w n') : n = n' := by
  rw [← decode_encode h, heq, decode_encode h']

theorem decode_lt (l : List UInt8) : decode l < 256 ^ l.length := by
  induction l using List.reverseRecOn with
  | nil => exact Nat.one_pos
  | append_singleton l b ih =>
    have hb := b.toNat_lt
    rw [decode_concat, List.length_append, List.length_singleton, pow_succ]
    omega

theorem encode_decode (l : List UInt8) : encode l.length (decode l) = l := by
  induction l using List.reverseRecOn with
  | nil => rfl
  | append_singleton l b ih =>
    have hb := b.toNat_lt
    have hdiv : (256 * decode l + b.toNat) / 256 = decode l := by omega
    have hlow : UInt8.ofNat (256 * decode l + b.toNat) = b := by
      apply UInt8.toNat_inj.mp
      rw [UInt8.toNat_ofNat']
      omega
    rw [decode_concat, List.length_append, List.length_singleton, encode, hdiv, ih, hlow]

end BigEndian
