import Mathlib

/-! Decimal numerals with leading zeros: how they are written, read back and compared. -/
namespace Decimal

variable {w n a b : ℕ} {c : Char} {s p q x y : List Char}

/-- The digits of `n`, with zeros in front up to a width of `w`. -/
def padded (w n : ℕ) : List Char :=
  List.replicate (w - (Nat.toDigits 10 n).length) '0' ++ Nat.toDigits 10 n

/-- The number that a text of digits stands for. -/
def read (s : List Char) : Option ℕ :=
  if s ≠ [] ∧ s.all Char.isDigit then some (Nat.ofDigitChars 10 s 0) else none

theorem padded_zero (n : ℕ) : padded 0 n = Nat.toDigits 10 n := by
  rw [padded, Nat.zero_sub]
  rfl

theorem isDigit_of_mem (h : c ∈ padded w n) : c.isDigit = true := by
  rcases List.mem_append.mp h with h | h
  · rw [List.eq_of_mem_replicate h]
    rfl
  · exact Nat.isDigit_of_mem_toDigits (by decide) (by decide) h

theorem padded_ne_nil (w n : ℕ) : padded w n ≠ [] :=
  List.append_ne_nil_of_right_ne_nil _ Nat.toDigits_ne_nil

theorem ofDigitChars_padded (w n : ℕ) : Nat.ofDigitChars 10 (padded w n) 0 = n := by
  rw [padded, Nat.ofDigitChars_append, Nat.ofDigitChars_replicate_zero, Nat.mul_zero,
    Nat.ofDigitChars_ten_toDigits]

/-- Leading zeros do not change the number. -/
theorem read_padded (w n : ℕ) : read (padded w n) = some n := by
  rw [read, if_pos ⟨padded_ne_nil w n, List.all_eq_true.mpr (fun _ => isDigit_of_mem)⟩,
    ofDigitChars_padded]

/-- A number that fits the width is written in exactly that many digits. -/
theorem length_padded (hw : 0 < w) (h : n < 10 ^ w) : (padded w n).length = w := by
  have hle := (Nat.length_toDigits_le_iff (b := 10) (by decide) hw).mpr h
  rw [padded, List.length_append, List.length_replicate]
  omega

theorem notMem_padded (h : c.isDigit = false) : c ∉ padded w n := by
  intro hmem
  rw [isDigit_of_mem hmem] at h
  cases h

theorem append_lt_append_iff (h : p.length = q.length) :
    p ++ x < q ++ y ↔ p < q ∨ p = q ∧ x < y := by
  induction p generalizing q with
  | nil =>
    rw [List.length_eq_zero_iff.mp h.symm]
    simp
  | cons c p ih =>
    cases q with
    | nil => cases h
    | cons d q =>
      rw [List.cons_append, List.cons_append, List.cons_lt_cons_iff, List.cons_lt_cons_iff,
        ih (Nat.succ.inj h), List.cons.injEq]
      tauto

theorem ofDigitChars_cons_zero (c : Char) (p : List Char) :
    Nat.ofDigitChars 10 (c :: p) 0 =
      10 ^ p.length * (c.toNat - '0'.toNat) + Nat.ofDigitChars 10 p 0 := by
  rw [Nat.ofDigitChars_cons, Nat.mul_zero, Nat.zero_add, Nat.ofDigitChars_eq_ofDigitChars_zero]

/-- A text of `k` digits stands for a number below `10 ^ k`. -/
theorem ofDigitChars_lt (h : ∀ c ∈ p, c.isDigit = true) :
    Nat.ofDigitChars 10 p 0 < 10 ^ p.length := by
  induction p with
  | nil => simp
  | cons c p ih =>
    have hrest := ih (fun d hd => h d (List.mem_cons_of_mem c hd))
    have hc := h c List.mem_cons_self
    rw [Char.isDigit_iff_toNat] at hc
    have hdigit : c.toNat - '0'.toNat + 1 ≤ 10 := by
      have h0 : '0'.toNat = 48 := rfl
      have h9 : '9'.toNat = 57 := rfl
      omega
    have hmul := Nat.mul_le_mul_left (10 ^ p.length) hdigit
    rw [Nat.mul_add, Nat.mul_one] at hmul
    rw [ofDigitChars_cons_zero, List.length_cons, pow_succ]
    omega

/-- Of texts with equally many digits the lesser one is that of the lesser number. -/
theorem lt_iff_ofDigitChars_lt (hp : ∀ c ∈ p, c.isDigit = true) (hq : ∀ c ∈ q, c.isDigit = true)
    (h : p.length = q.length) :
    p < q ↔ Nat.ofDigitChars 10 p 0 < Nat.ofDigitChars 10 q 0 := by
  induction p generalizing q with
  | nil =>
    rw [List.length_eq_zero_iff.mp h.symm]
    simp
  | cons c p ih =>
    cases q with
    | nil => cases h
    | cons d q =>
      have hp' := fun e he => hp e (List.mem_cons_of_mem c he)
      have hq' := fun e he => hq e (List.mem_cons_of_mem d he)
      have hlen : p.length = q.length := Nat.succ.inj h
      have hpl := ofDigitChars_lt hp'
      have hql := ofDigitChars_lt hq'
      have hc := (Char.isDigit_iff_toNat.mp (hp c List.mem_cons_self)).1
      have hd := (Char.isDigit_iff_toNat.mp (hq d List.mem_cons_self)).1
      rw [List.cons_lt_cons_iff, ih hp' hq' hlen, ofDigitChars_cons_zero, ofDigitChars_cons_zero,
        ← hlen]
      rw [← hlen] at hql
      rcases lt_trichotomy c d with hcd | rfl | hcd
      · have hlt : c.toNat < d.toNat := hcd
        have hmul := Nat.mul_le_mul_left (10 ^ p.length)
          (show c.toNat - '0'.toNat + 1 ≤ d.toNat - '0'.toNat by omega)
        rw [Nat.mul_add, Nat.mul_one] at hmul
        exact iff_of_true (Or.inl hcd) (by omega)
      · rw [Nat.add_lt_add_iff_left]
        simp
      · have hlt : d.toNat < c.toNat := hcd
        have hmul := Nat.mul_le_mul_left (10 ^ p.length)
          (show d.toNat - '0'.toNat + 1 ≤ c.toNat - '0'.toNat by omega)
        rw [Nat.mul_add, Nat.mul_one] at hmul
        refine iff_of_false ?_ (by omega)
        rintro (h | ⟨rfl, -⟩)
        · exact lt_asymm h hcd
        · exact lt_irrefl _ hcd

theorem eq_of_ofDigitChars_eq (hp : ∀ c ∈ p, c.isDigit = true) (hq : ∀ c ∈ q, c.isDigit = true)
    (h : p.length = q.length) (heq : Nat.ofDigitChars 10 p 0 = Nat.ofDigitChars 10 q 0) :
    p = q := by
  rcases lt_trichotomy p q with hlt | hpq | hlt
  · have hval := (lt_iff_ofDigitChars_lt hp hq h).mp hlt
    omega
  · exact hpq
  · have hval := (lt_iff_ofDigitChars_lt hq hp h.symm).mp hlt
    omega

/-- The width of the numeral: its digits, or `w` where they are fewer. -/
theorem length_padded_eq (w n : ℕ) :
    (padded w n).length = max w (Nat.toDigits 10 n).length := by
  rw [padded, List.length_append, List.length_replicate]
  omega

theorem length_padded_mono (h : a ≤ b) : (padded w a).length ≤ (padded w b).length := by
  rw [length_padded_eq, length_padded_eq]
  have hpos : 0 < (Nat.toDigits 10 b).length := List.length_pos_iff.mpr Nat.toDigits_ne_nil
  have hb := (Nat.length_toDigits_le_iff (n := b) (b := 10) (by decide) hpos).mp le_rfl
  have ha := (Nat.length_toDigits_le_iff (n := a) (b := 10) (by decide) hpos).mpr
    (lt_of_le_of_lt h hb)
  exact max_le_max le_rfl ha

/-- How two numerals compare that end in a character below every digit. -/
theorem padded_append_lt_iff (hc : ∀ d : Char, d.isDigit = true → c < d)
    (h : a < b) : padded w a ++ c :: x < padded w b ++ c :: x ↔
      a * 10 ^ ((padded w b).length - (padded w a).length) ≤ b := by
  have hle : (padded w a).length ≤ (padded w b).length := length_padded_mono h.le
  have hdigits : ∀ d ∈ padded w b, d.isDigit = true := fun d => isDigit_of_mem
  have hsplit := List.take_append_drop (padded w a).length (padded w b)
  generalize hq : (padded w b).take (padded w a).length = q at hsplit
  generalize hr : (padded w b).drop (padded w a).length = r at hsplit
  have hqlen : q.length = (padded w a).length := by
    rw [← hq, List.length_take]
    omega
  have hrlen : r.length = (padded w b).length - (padded w a).length := by
    rw [← hr, List.length_drop]
  have hqd : ∀ d ∈ q, d.isDigit = true := fun d hd =>
    hdigits d (by rw [← hsplit]; exact List.mem_append_left r hd)
  have hrd : ∀ d ∈ r, d.isDigit = true := fun d hd =>
    hdigits d (by rw [← hsplit]; exact List.mem_append_right q hd)
  have hvalue : b = 10 ^ r.length * Nat.ofDigitChars 10 q 0 + Nat.ofDigitChars 10 r 0 := by
    rw [← Nat.ofDigitChars_eq_ofDigitChars_zero, ← Nat.ofDigitChars_append, hsplit,
      ofDigitChars_padded]
  have hrlt := ofDigitChars_lt hrd
  rw [← hrlen, ← hsplit, List.append_assoc, append_lt_append_iff hqlen.symm,
    lt_iff_ofDigitChars_lt (fun d => isDigit_of_mem) hqd hqlen.symm, ofDigitChars_padded]
  rcases lt_trichotomy a (Nat.ofDigitChars 10 q 0) with hlt | heq | hgt
  · have hmul := Nat.mul_le_mul_right (10 ^ r.length) hlt.le
    rw [Nat.mul_comm (Nat.ofDigitChars 10 q 0)] at hmul
    exact iff_of_true (Or.inl hlt) (by omega)
  · have hpq : padded w a = q := by
      apply eq_of_ofDigitChars_eq (fun d => isDigit_of_mem) hqd hqlen.symm
      rw [ofDigitChars_padded, heq]
    refine iff_of_true (Or.inr ⟨hpq, ?_⟩) ?_
    · cases r with
      | nil => simp [← heq] at hvalue; omega
      | cons d r => exact List.cons_lt_cons_iff.mpr (Or.inl (hc d (hrd d List.mem_cons_self)))
    · rw [hvalue, ← heq, Nat.mul_comm]
      exact Nat.le_add_right _ _
  · have hmul := Nat.mul_le_mul_left (10 ^ r.length) (Nat.succ_le_of_lt hgt)
    rw [Nat.succ_eq_add_one, Nat.mul_add, Nat.mul_one, Nat.mul_comm _ a] at hmul
    refine iff_of_false ?_ (by omega)
    rintro (hlt | ⟨rfl, -⟩)
    · exact lt_asymm hlt hgt
    · rw [ofDigitChars_padded] at hgt
      exact lt_irrefl _ hgt

end Decimal
