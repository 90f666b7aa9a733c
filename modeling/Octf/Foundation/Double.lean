import Mathlib.Algebra.Ring.Nat
import Mathlib.Tactic.Common

/-! Natural numbers stored in doubles. -/
namespace Foundation

/-- The double next to a natural number, the even one of two; the exponent has no bound. -/
def double (n : ℕ) : ℕ :=
  let unit := 2 ^ (n.log2 - 52)
  let floor := n / unit
  let rest := n % unit
  if 2 * rest < unit ∨ 2 * rest = unit ∧ floor % 2 = 0 then floor * unit else (floor + 1) * unit

/-- Up to `2 ^ 53` nothing is rounded. -/
theorem double_of_le {n : ℕ} (hn : n ≤ 2 ^ 53) : double n = n := by
  rcases Nat.eq_or_lt_of_le hn with rfl | hlt
  · decide
  · have hlog : n.log2 - 52 = 0 := by
      by_cases hzero : n = 0
      · rw [hzero]
        rfl
      · have := (Nat.log2_lt hzero).mpr hlt
        omega
    unfold double
    simp [hlog, Nat.mod_one]

example : double (2 ^ 53 + 1) = 2 ^ 53 ∧ double (2 ^ 53 + 3) = 2 ^ 53 + 4 := by decide

end Foundation
