import Mathlib.Tactic.Ring

/-! Natural numbers in base 128, the lowest digit first, every byte but the last marked. -/
namespace Foundation

def varint (n : ℕ) : List UInt8 :=
  if n < 128 then [UInt8.ofNat n] else UInt8.ofNat (n % 128 + 128) :: varint (n / 128)

theorem varint_of_lt {n : ℕ} (h : n < 128) : varint n = [UInt8.ofNat n] := by
  rw [varint, if_pos h]

theorem varint_of_ge {n : ℕ} (h : 128 ≤ n) :
    varint n = UInt8.ofNat (n % 128 + 128) :: varint (n / 128) := by
  rw [varint, if_neg (Nat.not_lt.mpr h)]

theorem length_varint_pos (n : ℕ) : 0 < (varint n).length := by
  rcases Nat.lt_or_ge n 128 with h | h
  · rw [varint_of_lt h]
    exact Nat.one_pos
  · rw [varint_of_ge h]
    exact Nat.succ_pos _

/-- All digits but the last are marked. -/
theorem marked_of_mem_take {n k : ℕ} (hk : k < (varint n).length) :
    ∀ b ∈ (varint n).take k, 128 ≤ b.toNat := by
  induction k generalizing n with
  | zero => exact fun b hb => nomatch hb
  | succ k ih =>
    rcases Nat.lt_or_ge n 128 with hn | hn
    · rw [varint_of_lt hn, List.length_singleton] at hk
      omega
    · rw [varint_of_ge hn, List.length_cons] at hk
      rw [varint_of_ge hn, List.take_succ_cons]
      intro b hb
      rcases List.mem_cons.mp hb with rfl | hb
      · rw [UInt8.toNat_ofNat']
        omega
      · exact ih (by omega) b hb

/-- `k` digits suffice below `128 ^ k`. -/
theorem length_varint_le {n k : ℕ} (hk : 0 < k) (h : n < 128 ^ k) : (varint n).length ≤ k := by
  induction k generalizing n with
  | zero => exact absurd hk (Nat.lt_irrefl 0)
  | succ k ih =>
    rcases Nat.lt_or_ge n 128 with hn | hn
    · rw [varint_of_lt hn]
      exact Nat.succ_le_succ (Nat.zero_le k)
    · have hdiv : n / 128 < 128 ^ k := (Nat.div_lt_iff_lt_mul (by decide)).mpr h
      have hpos : 0 < k := by
        rcases Nat.eq_zero_or_pos k with rfl | hpos
        · rw [Nat.zero_add, Nat.pow_one] at h
          omega
        · exact hpos
      rw [varint_of_ge hn]
      exact Nat.succ_le_succ (ih hpos hdiv)

end Foundation
