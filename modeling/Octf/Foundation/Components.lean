import Mathlib.Data.List.Basic
import Mathlib.Tactic.Common

/-! Runs over a list of components. Each operation changes the component at one index and may
fail, so that a run over all of them is one run for each component. -/
namespace Foundation

variable {σ α ε : Type*} {step : α → σ → Except ε σ}

/-- An operation on the component at an index. Behind the last component it changes nothing. -/
def stepAt (step : α → σ → Except ε σ) (op : ℕ × α) (s : List σ) : Except ε (List σ) :=
  match s[op.1]? with
  | none => .ok s
  | some x => (step op.2 x).map (s.set op.1)

/-- The operations, first to last, up to the first that fails. -/
def runAll (step : α → σ → Except ε σ) : List α → σ → Except ε σ
  | [], x => .ok x
  | a :: ops, x => (step a x).bind (runAll step ops)

/-- The operations on one component. -/
def opsAt (i : ℕ) (ops : List (ℕ × α)) : List α :=
  ops.filterMap fun op => if op.1 = i then some op.2 else none

@[simp] theorem runAll_nil (x : σ) : runAll step [] x = .ok x := rfl

@[simp] theorem runAll_cons (a : α) (ops : List α) (x : σ) :
    runAll step (a :: ops) x = (step a x).bind (runAll step ops) := rfl

@[simp] theorem opsAt_nil (i : ℕ) : opsAt i ([] : List (ℕ × α)) = [] := rfl

theorem opsAt_cons (i : ℕ) (op : ℕ × α) (ops : List (ℕ × α)) :
    opsAt i (op :: ops) = if op.1 = i then op.2 :: opsAt i ops else opsAt i ops := by
  unfold opsAt
  rw [List.filterMap_cons]
  by_cases h : op.1 = i <;> simp [h]

/-- A property that every successful step keeps. -/
theorem runAll_invariant {P : σ → Prop} (hstep : ∀ a x y, step a x = .ok y → P x → P y)
    {ops : List α} {x y : σ} (h : runAll step ops x = .ok y) (hx : P x) : P y := by
  induction ops generalizing x with
  | nil =>
    cases h
    exact hx
  | cons a ops ih =>
    rw [runAll_cons] at h
    cases ha : step a x with
    | error e => simp [ha, Except.bind] at h
    | ok z => exact ih (by simpa [ha, Except.bind] using h) (hstep a x z ha hx)

/-- A run succeeds exactly when the run of every component does, and ends in what they end in. -/
theorem runAll_stepAt_iff {ops : List (ℕ × α)} {s s' : List σ} :
    runAll (stepAt step) ops s = .ok s' ↔
      s'.length = s.length ∧
        ∀ i x x', s[i]? = some x → s'[i]? = some x' → runAll step (opsAt i ops) x = .ok x' := by
  induction ops generalizing s with
  | nil =>
    simp only [runAll_nil, Except.ok.injEq, opsAt_nil]
    constructor
    · rintro rfl
      refine ⟨rfl, fun i x x' hx hx' => ?_⟩
      rw [hx] at hx'
      exact Option.some.inj hx'
    · rintro ⟨hlength, hall⟩
      refine List.ext_getElem? fun i => ?_
      by_cases hi : i < s.length
      · have hx := List.getElem?_eq_getElem hi
        have hx' := List.getElem?_eq_getElem (hlength ▸ hi : i < s'.length)
        rw [hx, hx', hall i _ _ hx hx']
      · rw [List.getElem?_eq_none (by omega), List.getElem?_eq_none (by omega)]
  | cons op ops ih =>
    obtain ⟨k, a⟩ := op
    rw [runAll_cons]
    cases hk : s[k]? with
    | none =>
      -- no component stands at the index, and none of the others is run with the operation
      have hstep : stepAt step (k, a) s = .ok s := by simp [stepAt, hk]
      rw [hstep]
      refine ih.trans (and_congr_right fun _ => forall_congr' fun i =>
        forall₄_congr fun x x' hx _ => ?_)
      have hne : k ≠ i := by
        rintro rfl
        simp [hk] at hx
      rw [opsAt_cons, if_neg hne]
    | some y =>
      have hrange : k < s.length := (List.getElem?_eq_some_iff.mp hk).1
      cases ha : step a y with
      | error e =>
        have hstep : stepAt step (k, a) s = .error e := by simp [stepAt, hk, ha, Except.map]
        rw [hstep]
        refine ⟨fun h => (nomatch h), fun ⟨hlength, hall⟩ => ?_⟩
        have hone := hall k y _ hk (List.getElem?_eq_getElem (hlength ▸ hrange))
        simp [opsAt_cons, ha, Except.bind] at hone
      | ok z =>
        have hstep : stepAt step (k, a) s = .ok (s.set k z) := by
          simp [stepAt, hk, ha, Except.map]
        rw [hstep]
        refine ih.trans ?_
        rw [List.length_set]
        refine and_congr_right fun _ => ⟨fun hall i x x' hx hx' => ?_, fun hall i x x' hx hx' => ?_⟩
        · by_cases hki : k = i
          · subst hki
            obtain rfl : y = x := Option.some.inj (hk.symm.trans hx)
            have hset : (s.set k z)[k]? = some z := by simp [hrange]
            have := hall k z x' hset hx'
            simpa [opsAt_cons, ha, Except.bind] using this
          · rw [opsAt_cons, if_neg hki]
            exact hall i x x' (by rwa [List.getElem?_set_ne hki]) hx'
        · by_cases hki : k = i
          · subst hki
            obtain rfl : z = x := by simpa [hrange] using hx
            have := hall k y x' hk hx'
            simpa [opsAt_cons, ha, Except.bind] using this
          · have := hall i x x' (by rwa [List.getElem?_set_ne hki] at hx) hx'
            rwa [opsAt_cons, if_neg hki] at this

/-- Where every component has a run, there is one of all of them. -/
theorem exists_runAll_stepAt {ops : List (ℕ × α)} {s : List σ}
    (h : ∀ i x, s[i]? = some x → ∃ x', runAll step (opsAt i ops) x = .ok x') :
    ∃ s', runAll (stepAt step) ops s = .ok s' := by
  induction ops generalizing s with
  | nil => exact ⟨s, rfl⟩
  | cons op ops ih =>
    obtain ⟨k, a⟩ := op
    rw [runAll_cons]
    cases hk : s[k]? with
    | none =>
      have hstep : stepAt step (k, a) s = .ok s := by simp [stepAt, hk]
      rw [hstep]
      refine ih fun i x hx => ?_
      have hne : k ≠ i := by
        rintro rfl
        simp [hk] at hx
      simpa [opsAt_cons, hne] using h i x hx
    | some y =>
      have hy := h k y hk
      rw [opsAt_cons, if_pos rfl, runAll_cons] at hy
      cases ha : step a y with
      | error e => simp [ha, Except.bind] at hy
      | ok z =>
        have hstep : stepAt step (k, a) s = .ok (s.set k z) := by
          simp [stepAt, hk, ha, Except.map]
        rw [hstep]
        refine ih fun i x hx => ?_
        by_cases hki : k = i
        · subst hki
          have hrange := (List.getElem?_eq_some_iff.mp hk).1
          obtain rfl : z = x := by simpa [hrange] using hx
          simpa [ha, Except.bind] using hy
        · simpa [opsAt_cons, hki] using h i x (by rwa [List.getElem?_set_ne hki] at hx)

end Foundation
