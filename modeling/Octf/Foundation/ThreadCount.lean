import Mathlib.Data.Set.Card

/-! How many threads are at a kind of place in their programs, when one of them moves. -/
namespace Foundation

variable {T A : Type*} [DecidableEq T]

/-- The number of threads whose place is of a kind. -/
noncomputable def threadCount (pc : T → A) (kind : A → Prop) : ℕ := {t | kind (pc t)}.ncard

variable {pc : T → A} {kind : A → Prop} {t : T} {a : A}

/-- A thread that moves within the kind or outside of it does not count. -/
theorem threadCount_update_same (h : kind a ↔ kind (pc t)) :
    threadCount (Function.update pc t a) kind = threadCount pc kind := by
  unfold threadCount
  congr 1
  ext x
  by_cases hx : x = t
  · simp [hx, h]
  · simp [Function.update_of_ne hx]

variable [Finite T]

/-- A thread that comes to the kind. -/
theorem threadCount_update_enter (ha : kind a) (ht : ¬ kind (pc t)) :
    threadCount (Function.update pc t a) kind = threadCount pc kind + 1 := by
  unfold threadCount
  have hset : {x | kind (Function.update pc t a x)} = insert t {x | kind (pc x)} := by
    ext x
    by_cases hx : x = t
    · simp [hx, ha]
    · simp [hx]
  rw [hset, Set.ncard_insert_of_notMem (by simpa using ht)]

/-- A thread that leaves the kind. -/
theorem threadCount_update_leave (ha : ¬ kind a) (ht : kind (pc t)) :
    threadCount (Function.update pc t a) kind + 1 = threadCount pc kind := by
  have ha' : ¬ kind (Function.update pc t a t) := by rwa [Function.update_self]
  have hback := threadCount_update_enter ht ha'
  rw [Function.update_idem, Function.update_eq_self] at hback
  exact hback.symm

omit [DecidableEq T] in
theorem threadCount_eq_zero_iff : threadCount pc kind = 0 ↔ ∀ t, ¬ kind (pc t) := by
  unfold threadCount
  rw [Set.ncard_eq_zero, Set.eq_empty_iff_forall_notMem]
  rfl

omit [DecidableEq T] in
theorem threadCount_le : threadCount pc kind ≤ Nat.card T := by
  unfold threadCount
  rw [← Set.ncard_univ]
  exact Set.ncard_le_ncard (Set.subset_univ _)

end Foundation
