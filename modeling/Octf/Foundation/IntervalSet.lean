import Mathlib.Algebra.BigOperators.Group.Finset.Basic
import Mathlib.Data.Set.Card
import Mathlib.Data.Set.Finite.Lattice
import Mathlib.Data.Set.Lattice
import Mathlib.Order.CompletePartialOrder
import Mathlib.Order.Interval.Set.Basic
import Mathlib.Order.Interval.Finset.Nat

/-! Lists of half-open intervals that lie apart: what they cover, which of them cover a
given point, and how many points of another interval they cover. -/
namespace Foundation

/-- The half-open interval from `begin` to `end'`. -/
structure HalfOpen (α : Type*) where
  (begin end' : α)
  deriving DecidableEq, Repr

namespace HalfOpen

section Order

variable {α : Type*} [LinearOrder α]

def toSet (r : HalfOpen α) : Set α := Set.Ico r.begin r.end'

/-- The points of the listed intervals. -/
def covered (xs : List (HalfOpen α)) : Set α := {x | ∃ r ∈ xs, x ∈ r.toSet}

@[simp] theorem mem_toSet {r : HalfOpen α} {x : α} :
    x ∈ r.toSet ↔ r.begin ≤ x ∧ x < r.end' := Iff.rfl

@[simp] theorem covered_nil : covered ([] : List (HalfOpen α)) = ∅ := by
  simp [covered]

@[simp] theorem covered_cons (r : HalfOpen α) (xs : List (HalfOpen α)) :
    covered (r :: xs) = r.toSet ∪ covered xs := by
  ext x
  simp [covered]

@[simp] theorem covered_append (xs ys : List (HalfOpen α)) :
    covered (xs ++ ys) = covered xs ∪ covered ys := by
  ext x
  simp only [covered, List.mem_append, Set.mem_ofPred_eq, Set.mem_union, or_and_right, exists_or]

theorem mem_covered {xs : List (HalfOpen α)} {x : α} :
    x ∈ covered xs ↔ ∃ r ∈ xs, x ∈ r.toSet := Iff.rfl

/-- Non-empty intervals in ascending order, with a gap between any two. -/
structure Separated (xs : List (HalfOpen α)) : Prop where
  apart : xs.Pairwise fun r s => r.end' < s.begin
  nonempty : ∀ r ∈ xs, r.begin < r.end'

theorem Separated.nil : Separated ([] : List (HalfOpen α)) := ⟨List.Pairwise.nil, by simp⟩

theorem Separated.tail {r : HalfOpen α} {xs : List (HalfOpen α)} (h : Separated (r :: xs)) :
    Separated xs :=
  ⟨(List.pairwise_cons.mp h.apart).2, fun s hs => h.nonempty s (List.mem_cons_of_mem r hs)⟩

theorem Separated.lt_of_mem {r : HalfOpen α} {xs : List (HalfOpen α)} (h : Separated (r :: xs))
    {s : HalfOpen α} (hs : s ∈ xs) : r.end' < s.begin :=
  (List.pairwise_cons.mp h.apart).1 s hs

/-- The intervals behind, and how those in front of them lie. -/
theorem Separated.append {xs ys : List (HalfOpen α)} (h : Separated (xs ++ ys)) :
    Separated xs ∧ Separated ys ∧ ∀ r ∈ xs, ∀ s ∈ ys, r.end' < s.begin := by
  obtain ⟨hxs, hys, happart⟩ := List.pairwise_append.mp h.apart
  exact ⟨⟨hxs, fun r hr => h.nonempty r (List.mem_append_left ys hr)⟩,
    ⟨hys, fun r hr => h.nonempty r (List.mem_append_right xs hr)⟩, happart⟩

/-- A new interval in the gap between two parts. -/
theorem Separated.insert {xs ys : List (HalfOpen α)} {p : HalfOpen α} (hxs : Separated xs)
    (hys : Separated ys) (hp : p.begin < p.end') (hbelow : ∀ r ∈ xs, r.end' < p.begin)
    (habove : ∀ r ∈ ys, p.end' < r.begin) : Separated (xs ++ p :: ys) := by
  constructor
  · apply List.pairwise_append.mpr
    refine ⟨hxs.apart, List.pairwise_cons.mpr ⟨habove, hys.apart⟩, ?_⟩
    intro r hr s hs
    rcases List.mem_cons.mp hs with rfl | hs
    · exact hbelow r hr
    · exact (hbelow r hr).trans (hp.trans (habove s hs))
  · intro r hr
    rcases List.mem_append.mp hr with hr | hr
    · exact hxs.nonempty r hr
    · rcases List.mem_cons.mp hr with rfl | hr
      · exact hp
      · exact hys.nonempty r hr

/-- A point lies in one interval at most. -/
theorem Separated.eq_of_mem {xs : List (HalfOpen α)} (h : Separated xs) {r s : HalfOpen α}
    (hr : r ∈ xs) (hs : s ∈ xs) {x : α} (hxr : x ∈ r.toSet) (hxs : x ∈ s.toSet) : r = s := by
  induction xs with
  | nil => exact absurd hr List.not_mem_nil
  | cons t xs ih =>
    rcases List.mem_cons.mp hr with rfl | hr' <;> rcases List.mem_cons.mp hs with rfl | hs'
    · rfl
    · exact absurd (hxr.2.trans (h.lt_of_mem hs')) (not_lt.mpr hxs.1)
    · exact absurd (hxs.2.trans (h.lt_of_mem hr')) (not_lt.mpr hxr.1)
    · exact ih h.tail hr' hs'

/-- Replacing every interval by parts of it keeps the intervals apart. -/
theorem Separated.flatMap {xs : List (HalfOpen α)} (h : Separated xs)
    {f : HalfOpen α → List (HalfOpen α)} (hf : ∀ r ∈ xs, Separated (f r))
    (hin : ∀ r ∈ xs, ∀ s ∈ f r, r.begin ≤ s.begin ∧ s.end' ≤ r.end') :
    Separated (xs.flatMap f) := by
  induction xs with
  | nil => exact Separated.nil
  | cons t xs ih =>
    have hrest := ih h.tail (fun r hr => hf r (List.mem_cons_of_mem t hr))
      fun r hr => hin r (List.mem_cons_of_mem t hr)
    have ht := hf t (List.mem_cons_self ..)
    rw [List.flatMap_cons]
    constructor
    · refine List.pairwise_append.mpr ⟨ht.apart, hrest.apart, ?_⟩
      intro r hr s hs
      obtain ⟨u, hu, hsu⟩ := List.mem_flatMap.mp hs
      calc r.end' ≤ t.end' := (hin t (List.mem_cons_self ..) r hr).2
        _ < u.begin := h.lt_of_mem hu
        _ ≤ s.begin := (hin u (List.mem_cons_of_mem t hu) s hsu).1
    · intro r hr
      rcases List.mem_append.mp hr with hr | hr
      · exact ht.nonempty r hr
      · exact hrest.nonempty r hr

end Order

/-- How many points of `m` the intervals cover. -/
noncomputable def count (xs : List (HalfOpen ℕ)) (m : HalfOpen ℕ) : ℕ :=
  (covered xs ∩ m.toSet).ncard

/-- The common length of two intervals. -/
def common (r m : HalfOpen ℕ) : ℕ := min r.end' m.end' - max r.begin m.begin

theorem ncard_inter (r m : HalfOpen ℕ) : (r.toSet ∩ m.toSet).ncard = common r m := by
  rw [toSet, toSet, Set.Ico_inter_Ico, ← Finset.coe_Ico, Set.ncard_coe_finset, Nat.card_Ico,
    common]

/-- Intervals that lie apart cover as many points as each covers alone. -/
theorem Separated.count_eq {xs : List (HalfOpen ℕ)} (h : Separated xs) (m : HalfOpen ℕ) :
    count xs m = (xs.map fun r => common r m).sum := by
  induction xs with
  | nil => simp [count]
  | cons r xs ih =>
    have hfinite : ∀ s : Set ℕ, (s ∩ m.toSet).Finite := fun s =>
      (Set.finite_Ico m.begin m.end').subset Set.inter_subset_right
    have hdisjoint : Disjoint (r.toSet ∩ m.toSet) (covered xs ∩ m.toSet) := by
      rw [Set.disjoint_left]
      rintro x ⟨hr, _⟩ ⟨hx, _⟩
      obtain ⟨s, hs, hxs⟩ := mem_covered.mp hx
      exact absurd (hr.2.trans (h.lt_of_mem hs)) (not_lt.mpr hxs.1)
    rw [List.map_cons, List.sum_cons, ← ih h.tail, ← ncard_inter, count, count, covered_cons,
      Set.union_inter_distrib_right, Set.ncard_union_eq hdisjoint (hfinite _) (hfinite _)]

/-- How many points the intervals have together. -/
def total (xs : List (HalfOpen ℕ)) : ℕ := (xs.map fun r => r.end' - r.begin).sum

theorem covered_subset_Ico {xs : List (HalfOpen ℕ)} {bound : ℕ} (h : ∀ r ∈ xs, r.end' ≤ bound) :
    covered xs ⊆ Set.Ico 0 bound := by
  rintro x ⟨r, hr, -, hx⟩
  exact ⟨Nat.zero_le x, hx.trans_le (h r hr)⟩

theorem covered_finite {xs : List (HalfOpen ℕ)} {bound : ℕ} (h : ∀ r ∈ xs, r.end' ≤ bound) :
    (covered xs).Finite := (Set.finite_Ico 0 bound).subset (covered_subset_Ico h)

/-- Intervals that lie apart have together as many points as they cover. -/
theorem Separated.total_eq {xs : List (HalfOpen ℕ)} (h : Separated xs) {bound : ℕ}
    (hbound : ∀ r ∈ xs, r.end' ≤ bound) : total xs = (covered xs).ncard := by
  have hcount := h.count_eq ⟨0, bound⟩
  have hinter : covered xs ∩ (⟨0, bound⟩ : HalfOpen ℕ).toSet = covered xs :=
    Set.inter_eq_left.mpr (covered_subset_Ico hbound)
  rw [count, hinter] at hcount
  rw [hcount, total]
  congr 1
  refine List.map_congr_left fun r hr => ?_
  simp only [common, Nat.min_eq_left (hbound r hr), Nat.max_zero]

theorem Separated.total_le {xs : List (HalfOpen ℕ)} (h : Separated xs) {bound : ℕ}
    (hbound : ∀ r ∈ xs, r.end' ≤ bound) : total xs ≤ bound := by
  rw [h.total_eq hbound]
  calc (covered xs).ncard ≤ (Set.Ico 0 bound).ncard :=
        Set.ncard_le_ncard (covered_subset_Ico hbound) (Set.finite_Ico 0 bound)
    _ = bound := by rw [← Finset.coe_Ico, Set.ncard_coe_finset, Nat.card_Ico, Nat.sub_zero]

/-- Covering less means having fewer points. -/
theorem Separated.total_mono {xs ys : List (HalfOpen ℕ)} (hxs : Separated xs) (hys : Separated ys)
    {bound : ℕ} (hbound : ∀ r ∈ ys, r.end' ≤ bound) (h : covered xs ⊆ covered ys) :
    total xs ≤ total ys := by
  have hbound' : ∀ r ∈ xs, r.end' ≤ bound := by
    intro r hr
    have hne := hxs.nonempty r hr
    obtain ⟨-, hlast⟩ := covered_subset_Ico hbound (h ⟨r, hr, Nat.le_sub_one_of_lt hne, by omega⟩)
    omega
  rw [hxs.total_eq hbound', hys.total_eq hbound]
  exact Set.ncard_le_ncard h (covered_finite hbound)

end HalfOpen

/-! ### Finite unions -/

variable {ι α : Type*} [DecidableEq ι]

theorem ncard_biUnion_le (s : Finset ι) (f : ι → Set α) :
    (⋃ i ∈ s, f i).ncard ≤ ∑ i ∈ s, (f i).ncard := by
  induction s using Finset.induction_on with
  | empty => simp
  | insert a s ha ih =>
    rw [Finset.set_biUnion_insert, Finset.sum_insert ha]
    exact (Set.ncard_union_le _ _).trans (Nat.add_le_add_left ih _)

/-- Finite sets have as many points together as apart exactly when they are disjoint. -/
theorem ncard_biUnion_eq_sum_iff (s : Finset ι) {f : ι → Set α} (hf : ∀ i, (f i).Finite) :
    (⋃ i ∈ s, f i).ncard = ∑ i ∈ s, (f i).ncard ↔ (s : Set ι).PairwiseDisjoint f := by
  induction s using Finset.induction_on with
  | empty => simp
  | insert a s ha ih =>
    have hrest : (⋃ i ∈ s, f i).Finite := s.finite_toSet.biUnion fun i _ => hf i
    have hsum := Set.ncard_union_add_ncard_inter (f a) (⋃ i ∈ s, f i) (hf a) hrest
    have hle := ncard_biUnion_le s f
    have hinter : (f a ∩ ⋃ i ∈ s, f i).ncard = 0 ↔ ∀ i ∈ s, Disjoint (f a) (f i) := by
      rw [Set.ncard_eq_zero ((hf a).inter_of_left _), ← Set.disjoint_iff_inter_eq_empty,
        Set.disjoint_iUnion₂_right]
    rw [Finset.set_biUnion_insert, Finset.sum_insert ha, Finset.coe_insert,
      Set.pairwiseDisjoint_insert_of_notMem (by simpa using ha), ← ih]
    constructor
    · intro heq
      exact ⟨by omega, hinter.mp (by omega)⟩
    · rintro ⟨heq, hdisjoint⟩
      have hzero := hinter.mpr hdisjoint
      omega

end Foundation
