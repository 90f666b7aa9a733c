import Mathlib.Tactic.Ring

/-! Arithmetic of 64-bit words, kept as natural numbers. -/
namespace Foundation

/-- Addition of 64-bit words. -/
def add64 (a b : ℕ) : ℕ := (a + b) % 2 ^ 64

/-- Subtraction of 64-bit words. -/
def sub64 (a b : ℕ) : ℕ := (a + 2 ^ 64 - b) % 2 ^ 64

/-- Multiplication of 64-bit words. -/
def mul64 (a b : ℕ) : ℕ := a * b % 2 ^ 64

/-- A word read as a signed number. -/
def toInt64 (a : ℕ) : ℤ := if a < 2 ^ 63 then a else a - 2 ^ 64

/-- Increment of a signed 64-bit counter. -/
def incInt64 (x : ℤ) : ℤ := if x = 2 ^ 63 - 1 then -2 ^ 63 else x + 1

theorem incInt64_le (x : ℤ) : incInt64 x ≤ x + 1 := by
  unfold incInt64
  split_ifs <;> omega

theorem mul64_of_lt {a b : ℕ} (h : a * b < 2 ^ 64) : mul64 a b = a * b := Nat.mod_eq_of_lt h

theorem toInt64_of_lt {a : ℕ} (h : a < 2 ^ 63) : toInt64 a = a := if_pos h

/-- Words below `2 ^ 63` are those that are not negative. -/
theorem lt_of_toInt64_nonneg {a : ℕ} (ha : a < 2 ^ 64) (h : 0 ≤ toInt64 a) : a < 2 ^ 63 := by
  unfold toInt64 at h
  split_ifs at h with hlt
  · exact hlt
  · omega

theorem add64_of_lt {a b : ℕ} (h : a + b < 2 ^ 64) : add64 a b = a + b := Nat.mod_eq_of_lt h

theorem sub64_of_le {a b : ℕ} (hba : b ≤ a) (ha : a < 2 ^ 64) : sub64 a b = a - b := by
  have hsum : a + 2 ^ 64 - b = a - b + 2 ^ 64 := by omega
  rw [sub64, hsum, Nat.add_mod_right, Nat.mod_eq_of_lt (by omega)]

end Foundation
