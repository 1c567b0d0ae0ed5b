import Mathlib

/-! Unsigned arithmetic on words of a given width: `none` where the result does not fit or the
operation is not defined. -/
namespace Checked

variable {w a b k : ℕ}

def add (w a b : ℕ) : Option ℕ := if a + b < 2 ^ w then some (a + b) else none

def sub (a b : ℕ) : Option ℕ := if b ≤ a then some (a - b) else none

def mul (w a b : ℕ) : Option ℕ := if a * b < 2 ^ w then some (a * b) else none

/-- A number as a word, where it fits one. -/
def narrow (w a : ℕ) : Option ℕ := if a < 2 ^ w then some a else none

/-- The bits shifted out are lost; a count of the width or more is not defined. -/
def shiftLeft (w a k : ℕ) : Option ℕ := if k < w then some ((a <<< k) % 2 ^ w) else none

/-- The position of the highest one bit. -/
def log2 (a : ℕ) : Option ℕ := if a = 0 then none else some a.log2

theorem add_eq (h : a + b < 2 ^ w) : add w a b = some (a + b) := if_pos h

theorem sub_eq (h : b ≤ a) : sub a b = some (a - b) := if_pos h

theorem log2_eq (h : a ≠ 0) : log2 a = some a.log2 := if_neg h

theorem mul_eq (h : a * b < 2 ^ w) : mul w a b = some (a * b) := if_pos h

theorem bind_narrow {α : Type*} (w a : ℕ) (f : ℕ → Option α) :
    (narrow w a).bind f = if a < 2 ^ w then f a else none := by
  rw [narrow]
  split <;> rfl

/-- Sums and products are computed without a bound and then narrowed. -/
theorem add_eq_narrow (w a b : ℕ) : add w a b = narrow w (a + b) := rfl

theorem mul_eq_narrow (w a b : ℕ) : mul w a b = narrow w (a * b) := rfl

theorem shiftLeft_one (h : k < w) : shiftLeft w 1 k = some (2 ^ k) := by
  rw [shiftLeft, if_pos h, Nat.one_shiftLeft, Nat.mod_eq_of_lt (Nat.pow_lt_pow_right (by omega) h)]

/-- A word's highest bit lies within the word. -/
theorem shiftLeft_one_log2 (h : a ≠ 0) (hlt : a < 2 ^ w) :
    shiftLeft w 1 a.log2 = some (2 ^ a.log2) :=
  shiftLeft_one ((Nat.log2_lt h).mpr hlt)

end Checked
