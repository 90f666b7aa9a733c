import Mathlib.Data.Nat.ModEq
import Mathlib.Algebra.BigOperators.Group.List.Basic
import Mathlib.Tactic.Ring
import Mathlib.Tactic.Linarith

/-! Records on a ring of `N` cells. Positions are unwrapped: they only grow, and the
cell of position `x` is `x % N`. A record is a head of one unit `u` followed by a
payload that never crosses the end of the ring; where it would, the rest of the lap is
skipped. All lengths are multiples of the unit, which divides `N`. -/
namespace Foundation.RecordRing

/-- Consecutive multiples of `u` are `u` apart. -/
theorem add_le_of_dvd_of_lt {u a b : ℕ} (ha : u ∣ a) (hb : u ∣ b) (h : a < b) : a + u ≤ b := by
  obtain ⟨k, rfl⟩ := ha
  obtain ⟨l, rfl⟩ := hb
  have hkl : k < l := lt_of_mul_lt_mul_left' h
  calc u * k + u = u * (k + 1) := by ring
    _ ≤ u * l := Nat.mul_le_mul_left u hkl

theorem dvd_mod {u N v : ℕ} (hN : u ∣ N) (hv : u ∣ v) : u ∣ v % N :=
  (Nat.dvd_mod_iff hN).mpr hv

/-- A head never crosses the end of the ring. -/
theorem head_le {u N v : ℕ} (hN : u ∣ N) (h0 : 0 < N) (hv : u ∣ v) : v % N + u ≤ N :=
  add_le_of_dvd_of_lt (dvd_mod hN hv) hN (Nat.mod_lt v h0)

/-- Two positions less than a lap apart, seen through their cells. -/
theorem gap_cases {N r w : ℕ} (hrw : r ≤ w) (hN : w < r + N) :
    (r % N ≤ w % N ∧ w + r % N = r + w % N) ∨
      (w % N < r % N ∧ w + r % N = r + w % N + N) := by
  have h0 : 0 < N := by omega
  have hr := Nat.div_add_mod r N
  have hw := Nat.div_add_mod w N
  have hrlt := Nat.mod_lt r h0
  have hwlt := Nat.mod_lt w h0
  have hlow : r / N ≤ w / N := Nat.div_le_div_right hrw
  have hhigh : w / N ≤ r / N + 1 := by
    have h := Nat.div_le_div_right (c := N) hN.le
    rwa [Nat.add_div_right r h0] at h
  rcases Nat.lt_or_ge (r / N) (w / N) with hlt | hge
  · right
    have hq : w / N = r / N + 1 := by omega
    have hmul : N * (w / N) = N * (r / N) + N := by rw [hq]; ring
    constructor <;> omega
  · left
    have hq : w / N = r / N := by omega
    rw [hq] at hw
    constructor <;> omega

/-- Consecutive stretches inside one lap occupy disjoint cells. -/
theorem cells_disjoint {N a l b k : ℕ} (hab : a + l ≤ b) (hN : b + k ≤ a + N) :
    a % N + l ≤ b % N ∨ b % N + k ≤ a % N := by
  rcases (show b = a + N ∨ b < a + N by omega) with heq | hlt
  · have hk : k = 0 := by omega
    right
    rw [heq, hk, Nat.add_mod_right, Nat.add_zero]
  · rcases gap_cases (by omega) hlt with ⟨_, h⟩ | ⟨_, h⟩
    · left; omega
    · right; omega

section Records

variable {N u : ℕ}

/-- Where the payload of a record at `v` starts: after the head, or on the next lap
when the rest of this one is too short. -/
def payloadPos (N u v s : ℕ) : ℕ :=
  if (v + u) % N + s ≤ N then v + u else v + u + (N - (v + u) % N)

/-- Where the record after a record at `v` starts. -/
def nextPos (N u v s : ℕ) : ℕ := payloadPos N u v s + s

theorem le_payloadPos (v s : ℕ) : v + u ≤ payloadPos N u v s := by
  unfold payloadPos
  split_ifs <;> omega

theorem le_nextPos (v s : ℕ) : v + u + s ≤ nextPos N u v s :=
  Nat.add_le_add_right (le_payloadPos v s) s

/-- A payload never crosses the end of the ring. -/
theorem payload_le (h0 : 0 < N) {v s : ℕ} (hs : s ≤ N) :
    payloadPos N u v s % N + s ≤ N := by
  unfold payloadPos
  split_ifs with h
  · exact h
  · have hlt := Nat.mod_lt (v + u) h0
    have hdm := Nat.div_add_mod (v + u) N
    have hlap : v + u + (N - (v + u) % N) = N * ((v + u) / N + 1) := by
      rw [Nat.mul_add, Nat.mul_one]
      omega
    rw [hlap, Nat.mul_mod_right]
    omega

theorem dvd_payloadPos (hN : u ∣ N) {v s : ℕ} (hv : u ∣ v) : u ∣ payloadPos N u v s := by
  unfold payloadPos
  have hvu : u ∣ v + u := Nat.dvd_add hv (Nat.dvd_refl u)
  split_ifs
  · exact hvu
  · exact Nat.dvd_add hvu (Nat.dvd_sub hN (dvd_mod hN hvu))

theorem dvd_nextPos (hN : u ∣ N) {v s : ℕ} (hv : u ∣ v) (hs : u ∣ s) :
    u ∣ nextPos N u v s :=
  Nat.dvd_add (dvd_payloadPos hN hv) hs

/-- The position after a run of records. -/
def endPos (N u v : ℕ) (sizes : List ℕ) : ℕ := sizes.foldl (nextPos N u) v

@[simp] theorem endPos_nil (v : ℕ) : endPos N u v [] = v := rfl

@[simp] theorem endPos_cons (v s : ℕ) (sizes : List ℕ) :
    endPos N u v (s :: sizes) = endPos N u (nextPos N u v s) sizes := rfl

@[simp] theorem endPos_append (v : ℕ) (xs ys : List ℕ) :
    endPos N u v (xs ++ ys) = endPos N u (endPos N u v xs) ys := by
  simp [endPos]

theorem le_endPos (v : ℕ) (sizes : List ℕ) : v ≤ endPos N u v sizes := by
  induction sizes generalizing v with
  | nil => exact le_rfl
  | cons s sizes ih =>
    have hnext := le_nextPos (N := N) (u := u) v s
    exact le_trans (by omega) (ih (nextPos N u v s))

end Records

end Foundation.RecordRing
