import Mathlib

/-! Half-open slices of a list, written `l.extract start stop`. -/
namespace Slices

variable {α : Type*} {l : List α} {s e k i : ℕ}

theorem length_extract (he : e ≤ l.length) : (l.extract s e).length = e - s := by
  simp only [List.extract_eq_take_drop, List.length_take, List.length_drop]
  omega

theorem take_extract (h : s + k ≤ e) : (l.extract s e).take k = l.extract s (s + k) := by
  simp only [List.extract_eq_take_drop, List.take_take]
  congr 1
  omega

theorem drop_extract (k : ℕ) : (l.extract s e).drop k = l.extract (s + k) e := by
  simp only [List.extract_eq_take_drop, List.drop_take, List.drop_drop]
  congr 1
  omega

theorem getElem?_extract (h : s + i < e) : (l.extract s e)[i]? = l[s + i]? := by
  simp only [List.extract_eq_take_drop]
  rw [List.getElem?_take_of_lt (by omega), List.getElem?_drop]

theorem extract_zero_length : l.extract 0 l.length = l := by simp

theorem extract_zero : l.extract 0 e = l.take e := by simp

theorem extract_extract {a b : ℕ} (h : s + b ≤ e) :
    (l.extract s e).extract a b = l.extract (s + a) (s + b) := by
  simp only [List.extract_eq_take_drop, List.drop_take, List.drop_drop, List.take_take]
  congr 1
  omega

theorem extract_append (h : e ≤ l.length) (t : List α) : (l ++ t).extract s e = l.extract s e := by
  simp only [List.extract_eq_take_drop]
  by_cases hs : s ≤ l.length
  · rw [List.drop_append_of_le_length hs, List.take_append_of_le_length]
    rw [List.length_drop]
    omega
  · rw [show e - s = 0 by omega]
    simp

end Slices
