import Mathlib.Algebra.BigOperators.Group.List.Basic
import Mathlib.Algebra.Ring.Nat
import Mathlib.Tactic.Common

/-! Ranges of numbers that follow each other without a gap. -/
namespace Foundation

variable {α : Type*} (first last : α → ℕ)

/-- Every range begins behind the one before, the first one at `start`. -/
def Consecutive : ℕ → List α → Prop
  | _, [] => True
  | start, a :: as => first a = start ∧ start ≤ last a ∧ Consecutive (last a + 1) as

/-- Where the next range begins. -/
def behind : ℕ → List α → ℕ
  | start, [] => start
  | _, a :: as => behind (last a + 1) as

def Within (a : α) (v : ℕ) : Prop := first a ≤ v ∧ v ≤ last a

instance (a : α) (v : ℕ) : Decidable (Within first last a v) := inferInstanceAs (Decidable (_ ∧ _))

variable {first last} {start : ℕ} {as bs : List α}

theorem behind_append : behind last start (as ++ bs) = behind last (behind last start as) bs := by
  induction as generalizing start with
  | nil => rfl
  | cons a as ih => exact ih

theorem consecutive_append : Consecutive first last start (as ++ bs) ↔
    Consecutive first last start as ∧ Consecutive first last (behind last start as) bs := by
  induction as generalizing start with
  | nil => simp [Consecutive, behind]
  | cons a as ih => simp only [List.cons_append, Consecutive, behind, ih, and_assoc]

/-- The parts of a list add up to the whole. -/
theorem sum_filter_add {p q r : ℕ → Bool} (hr : ∀ v, r v = true ↔ p v = true ∨ q v = true)
    (hdisjoint : ∀ v, ¬ (p v = true ∧ q v = true)) (f : ℕ → ℕ) (values : List ℕ) :
    ((values.filter p).map f).sum + ((values.filter q).map f).sum =
      ((values.filter r).map f).sum := by
  induction values with
  | nil => rfl
  | cons v values ih =>
    have hv := hr v
    have hboth := hdisjoint v
    cases hp : p v with
    | true =>
      cases hq : q v with
      | true => exact absurd ⟨hp, hq⟩ hboth
      | false =>
        have hall : r v = true := hv.mpr (Or.inl hp)
        simp only [List.filter_cons, hp, hq, hall, if_true, Bool.false_eq_true, if_false,
          List.map_cons, List.sum_cons, ← ih, Nat.add_assoc]
    | false =>
      cases hq : q v with
      | true =>
        have hall : r v = true := hv.mpr (Or.inr hq)
        simp only [List.filter_cons, hp, hq, hall, if_true, Bool.false_eq_true, if_false,
          List.map_cons, List.sum_cons, ← ih, Nat.add_left_comm]
      | false =>
        have hall : r v = false := by simpa [hp, hq] using hv
        simp only [List.filter_cons, hp, hq, hall, Bool.false_eq_true, if_false, ih]

namespace Consecutive

theorem start_le_behind (h : Consecutive first last start as) : start ≤ behind last start as := by
  induction as generalizing start with
  | nil => exact le_rfl
  | cons a as ih =>
    have hrest := ih h.2.2
    have hle := h.2.1
    exact (Nat.le_succ_of_le hle).trans hrest

theorem first_le_last (h : Consecutive first last start as) {a : α} (ha : a ∈ as) :
    start ≤ first a ∧ first a ≤ last a := by
  induction as generalizing start with
  | nil => cases ha
  | cons b as ih =>
    obtain ⟨hfirst, hle, hrest⟩ := h
    rcases List.mem_cons.mp ha with rfl | ha
    · exact ⟨hfirst.ge, hfirst.trans_le hle⟩
    · obtain ⟨hstart, hlast⟩ := ih hrest ha
      exact ⟨by omega, hlast⟩

/-- The ranges are disjoint and in their order. -/
theorem pairwise (h : Consecutive first last start as) :
    as.Pairwise fun a b => last a < first b := by
  induction as generalizing start with
  | nil => exact List.Pairwise.nil
  | cons a as ih => exact List.pairwise_cons.mpr ⟨fun b hb => (h.2.2.first_le_last hb).1, ih h.2.2⟩

/-- Nothing between the beginning and the end is left out. -/
theorem exists_within (h : Consecutive first last start as) {v : ℕ} (hstart : start ≤ v)
    (hbehind : v < behind last start as) : ∃ a ∈ as, Within first last a v := by
  induction as generalizing start with
  | nil => exact absurd hstart (Nat.not_le.mpr hbehind)
  | cons a as ih =>
    obtain ⟨hfirst, hle, hrest⟩ := h
    by_cases hlast : v ≤ last a
    · exact ⟨a, List.mem_cons_self, hfirst.trans_le hstart, hlast⟩
    · obtain ⟨b, hb, hwithin⟩ := ih hrest (Nat.lt_of_not_le hlast) hbehind
      exact ⟨b, List.mem_cons_of_mem a hb, hwithin⟩

/-- What the ranges hold adds up to what lies between the beginning and the end. -/
theorem sum_within (h : Consecutive first last start as) (f : ℕ → ℕ) (values : List ℕ) :
    (as.map fun a => ((values.filter fun v => Within first last a v).map f).sum).sum =
      ((values.filter fun v => start ≤ v ∧ v < behind last start as).map f).sum := by
  induction as generalizing start with
  | nil =>
    have hnone : values.filter (fun v => start ≤ v ∧ v < behind last start ([] : List α)) = [] := by
      rw [List.filter_eq_nil_iff]
      intro v _
      rw [decide_eq_true_eq]
      exact fun hv => absurd hv.1 (Nat.not_le.mpr hv.2)
    rw [hnone]
    rfl
  | cons a as ih =>
    obtain ⟨hfirst, hle, hrest⟩ := h
    have hbehind := hrest.start_le_behind
    rw [List.map_cons, List.sum_cons, ih hrest]
    apply sum_filter_add
    · intro v
      simp only [decide_eq_true_eq]
      simp only [Within, behind]
      omega
    · intro v
      simp only [decide_eq_true_eq]
      simp only [Within]
      omega

end Consecutive

end Foundation
