import Mathlib.Data.Finite.Prod
import Mathlib.Order.Interval.Finset.Nat
import Mathlib.Order.Preorder.Finite

/-! Walks along a partial function whose steps have weights. Without a bound on the number of their
steps they lead to a cycle that weighs nothing. -/
namespace Foundation

variable {α : Type*} {next : α → Option (ℕ × α)} {a b c : α} {n m v w bound : ℕ}

/-- A walk with the number of its steps, where it starts, the sum of its weights and its end. -/
inductive Walk (next : α → Option (ℕ × α)) : ℕ → α → ℕ → α → Prop
  | nil (a : α) : Walk next 0 a 0 a
  | cons {n : ℕ} {a b c : α} {w v : ℕ} (hnext : next a = some (w, b)) (hwalk : Walk next n b v c) :
    Walk next (n + 1) a (w + v) c

namespace Walk

theorem append (h : Walk next n a w b) (h' : Walk next m b v c) :
    Walk next (n + m) a (w + v) c := by
  induction h with
  | nil a => rwa [Nat.zero_add, Nat.zero_add]
  | cons hnext _ ih =>
    rw [Nat.succ_add, Nat.add_assoc]
    exact cons hnext (ih h')

theorem split (h : Walk next (n + m) a w c) :
    ∃ v b u, Walk next n a v b ∧ Walk next m b u c ∧ w = v + u := by
  induction n generalizing a w with
  | zero =>
    rw [Nat.zero_add] at h
    exact ⟨0, a, w, nil a, h, (Nat.zero_add w).symm⟩
  | succ n ih =>
    rw [Nat.succ_add] at h
    cases h with
    | @cons _ _ a' _ w' _ hnext hwalk =>
      obtain ⟨v, b, u, hfirst, hsecond, rfl⟩ := ih hwalk
      exact ⟨w' + v, b, u, cons hnext hfirst, hsecond, (Nat.add_assoc ..).symm⟩

/-- The steps are those of a function. -/
theorem unique (h : Walk next n a w b) (h' : Walk next n a v c) : w = v ∧ b = c := by
  induction h generalizing v with
  | nil a =>
    cases h'
    exact ⟨rfl, rfl⟩
  | cons hnext _ ih =>
    cases h' with
    | cons hnext' hwalk' =>
      obtain ⟨rfl, rfl⟩ := Prod.mk.inj (Option.some.inj (hnext.symm.trans hnext'))
      obtain ⟨rfl, hend⟩ := ih hwalk'
      exact ⟨rfl, hend⟩

/-- The ends of walks are the start or values of the function. -/
theorem target (h : Walk next n a w b) : b = a ∨ ∃ a' w', next a' = some (w', b) := by
  induction h with
  | nil a => exact Or.inl rfl
  | @cons _ a b _ w _ hnext _ ih =>
    rcases ih with rfl | htarget
    · exact Or.inr ⟨a, w, hnext⟩
    · exact Or.inr htarget

/-- A cycle without weight can be walked as often as one likes. -/
theorem repeats (h : Walk next n a 0 a) (times : ℕ) : Walk next (times * n) a 0 a := by
  induction times with
  | zero =>
    rw [Nat.zero_mul]
    exact nil a
  | succ times ih =>
    rw [Nat.succ_mul]
    exact ih.append h

end Walk

/-- Within the bound there is a cycle that weighs nothing. -/
def Trapped (next : α → Option (ℕ × α)) (bound : ℕ) (a : α) : Prop :=
  ∃ n w b k, Walk next n a w b ∧ w ≤ bound ∧ Walk next (k + 1) b 0 b

theorem Trapped.walk (h : Trapped next bound a) (steps : ℕ) :
    ∃ w b, w ≤ bound ∧ Walk next steps a w b := by
  obtain ⟨n, w, b, k, hwalk, hbound, hcycle⟩ := h
  have hlong := hwalk.append (hcycle.repeats steps)
  have hsplit : n + steps * (k + 1) = steps + (n + steps * k) := by
    rw [Nat.mul_succ]
    omega
  rw [hsplit] at hlong
  obtain ⟨v, c, u, hsteps, -, hsum⟩ := hlong.split
  exact ⟨v, c, by omega, hsteps⟩

/-- Some two of the walks end alike and weigh the same, and between them is the cycle. -/
theorem trapped_of_walks (hfinite : {b | ∃ a w, next a = some (w, b)}.Finite)
    (h : ∀ steps, ∃ w b, w ≤ bound ∧ Walk next steps a w b) : Trapped next bound a := by
  choose weight last hbound hwalk using h
  let targets := insert a {b | ∃ a w, next a = some (w, b)}
  have hmem : ∀ steps, (last steps, weight steps) ∈ targets ×ˢ Set.Iic bound := by
    intro steps
    exact ⟨(hwalk steps).target, hbound steps⟩
  obtain ⟨i, j, hlt, heq⟩ := Set.Finite.exists_lt_map_eq_of_forall_mem hmem
    ((hfinite.insert a).prod (Set.finite_Iic bound))
  obtain ⟨hlast, hweight⟩ := Prod.mk.inj heq
  obtain ⟨k, rfl⟩ := Nat.exists_eq_add_of_lt hlt
  obtain ⟨v, b, u, hfirst, hcycle, hsum⟩ := Walk.split (n := i) (m := k + 1) (hwalk (i + k + 1))
  obtain ⟨rfl, rfl⟩ := (hwalk i).unique hfirst
  have hzero : u = 0 := by omega
  rw [hzero, ← hlast] at hcycle
  exact ⟨i, weight i, last i, k, hwalk i, hbound i, hcycle⟩

theorem trapped_iff (hfinite : {b | ∃ a w, next a = some (w, b)}.Finite) :
    Trapped next bound a ↔ ∀ steps, ∃ w b, w ≤ bound ∧ Walk next steps a w b :=
  ⟨Trapped.walk, trapped_of_walks hfinite⟩

end Foundation
