import Mathlib.Data.List.Basic
import Mathlib.Data.List.Induction
import Mathlib.Order.Bounds.Basic
import Mathlib.Order.MinMax

/-! Runs of a deterministic step function over a list of operations, with the two rules
that carry invariants along them. -/
namespace Foundation

variable {σ α : Type*}

/-- The state after the operations, first to last. -/
def run (step : α → σ → σ) (ops : List α) (s : σ) : σ := ops.foldl (fun s a => step a s) s

@[simp] theorem run_nil (step : α → σ → σ) (s : σ) : run step [] s = s := rfl

@[simp] theorem run_cons (step : α → σ → σ) (a : α) (ops : List α) (s : σ) :
    run step (a :: ops) s = run step ops (step a s) := rfl

@[simp] theorem run_append (step : α → σ → σ) (xs ys : List α) (s : σ) :
    run step (xs ++ ys) s = run step ys (run step xs s) := by
  simp [run]

/-- Every step of the run meets a condition on its operation and the state before it. -/
def Meets (step : α → σ → σ) (C : α → σ → Prop) : List α → σ → Prop
  | [], _ => True
  | a :: ops, s => C a s ∧ Meets step C ops (step a s)

instance instDecidableMeets (step : α → σ → σ) (C : α → σ → Prop) [∀ a s, Decidable (C a s)] :
    ∀ ops s, Decidable (Meets step C ops s)
  | [], _ => .isTrue trivial
  | a :: ops, s =>
    have := instDecidableMeets step C ops (step a s)
    inferInstanceAs (Decidable (C a s ∧ Meets step C ops (step a s)))

/-- What every step that meets the condition preserves holds after every such run. -/
theorem run_invariant {step : α → σ → σ} {C : α → σ → Prop} {P : σ → Prop}
    (hstep : ∀ a s, C a s → P s → P (step a s)) {ops : List α} {s : σ}
    (hops : Meets step C ops s) (hs : P s) : P (run step ops s) := by
  induction ops generalizing s with
  | nil => exact hs
  | cons a ops ih => exact ih hops.2 (hstep a s hops.1 hs)

/-- A condition on the operations alone is met along the whole run. -/
theorem meets_of_forall {step : α → σ → σ} {C : α → Prop} {ops : List α}
    (h : ∀ a ∈ ops, C a) (s : σ) : Meets step (fun a _ => C a) ops s := by
  induction ops generalizing s with
  | nil => trivial
  | cons a ops ih =>
    exact ⟨h a (by simp), ih (fun b hb => h b (by simp [hb])) (step a s)⟩

/-- A condition on the operations alone can be added to one on the steps. -/
theorem Meets.and_forall {step : α → σ → σ} {C : α → σ → Prop} {D : α → Prop} {ops : List α}
    {s : σ} (hC : Meets step C ops s) (hD : ∀ a ∈ ops, D a) :
    Meets step (fun a s => D a ∧ C a s) ops s := by
  induction ops generalizing s with
  | nil => trivial
  | cons a ops ih =>
    exact ⟨⟨hD a (by simp), hC.1⟩, ih hC.2 fun b hb => hD b (by simp [hb])⟩

/-- The condition is met by both parts of a run. -/
theorem Meets.append {step : α → σ → σ} {C : α → σ → Prop} {xs ys : List α} {s : σ}
    (h : Meets step C (xs ++ ys) s) : Meets step C xs s ∧ Meets step C ys (run step xs s) := by
  induction xs generalizing s with
  | nil => exact ⟨trivial, h⟩
  | cons x xs ih => exact ⟨⟨h.1, (ih h.2).1⟩, (ih h.2).2⟩

/-- Every step has a property if its condition gives it under an invariant. -/
theorem Meets.imp_of_invariant {step : α → σ → σ} {C D : α → σ → Prop} {I : σ → Prop}
    (hinv : ∀ a s, C a s → I s → I (step a s)) (hD : ∀ a s, C a s → I s → D a s) {ops : List α}
    {s : σ} (h : Meets step C ops s) (hI : I s) : Meets step D ops s := by
  induction ops generalizing s with
  | nil => trivial
  | cons a ops ih => exact ⟨hD a s h.1 hI, ih h.2 (hinv a s h.1 hI)⟩

theorem Meets.congr {step : α → σ → σ} {C D : α → σ → Prop} {ops : List α} {s : σ}
    (h : Meets step (fun a s => C a s ↔ D a s) ops s) :
    Meets step C ops s ↔ Meets step D ops s := by
  induction ops generalizing s with
  | nil => exact Iff.rfl
  | cons a ops ih => exact and_congr h.1 (ih h.2)

/-- A property of every state of the run, the first and the last included. -/
def Always (step : α → σ → σ) (P : σ → Prop) : List α → σ → Prop
  | [], s => P s
  | a :: ops, s => P s ∧ Always step P ops (step a s)

theorem Always.run {step : α → σ → σ} {P : σ → Prop} {ops : List α} {s : σ}
    (h : Always step P ops s) : P (run step ops s) := by
  induction ops generalizing s with
  | nil => exact h
  | cons a ops ih => exact ih h.2

/-- A property holds all along a run exactly when every step meets the condition, if a step that
leaves the property intact meets it and the condition carries an invariant behind the property. -/
theorem always_iff_meets {step : α → σ → σ} {C : α → σ → Prop} {I P : σ → Prop}
    (hstep : ∀ a s, C a s → I s → I (step a s)) (hP : ∀ s, I s → P s)
    (hback : ∀ a s, P s → P (step a s) → C a s) {ops : List α} {s : σ} (hI : I s) :
    Always step P ops s ↔ Meets step C ops s := by
  constructor
  · clear hI
    intro h
    induction ops generalizing s with
    | nil => trivial
    | cons a ops ih =>
      have hnext : P (step a s) := by
        cases ops with
        | nil => exact h.2
        | cons b ops => exact h.2.1
      exact ⟨hback a s h.1 hnext, ih h.2⟩
  · intro h
    induction ops generalizing s with
    | nil => exact hP s hI
    | cons a ops ih => exact ⟨hP s hI, ih (hstep a s h.1 hI) h.2⟩

/-- What no step brings back holds after a run exactly when every step keeps it. -/
theorem run_iff_meets {step : α → σ → σ} {C : α → σ → Prop} {I P : σ → Prop}
    (hinv : ∀ a s, I s → I (step a s)) (hback : ∀ a s, I s → P (step a s) → P s)
    (hstep : ∀ a s, I s → P s → (P (step a s) ↔ C a s)) {ops : List α} {s : σ} (hI : I s)
    (hP : P s) : P (run step ops s) ↔ Meets step C ops s := by
  have hbefore : ∀ (ops : List α) (s : σ), I s → P (run step ops s) → P s := by
    intro ops
    induction ops with
    | nil => exact fun s _ h => h
    | cons a ops ih => exact fun s hs h => hback a s hs (ih _ (hinv a s hs) h)
  induction ops generalizing s with
  | nil => exact ⟨fun _ => trivial, fun _ => hP⟩
  | cons a ops ih =>
    constructor
    · intro h
      have hnext := hbefore ops _ (hinv a s hI) h
      exact ⟨(hstep a s hI hP).mp hnext, (ih (hinv a s hI) hnext).mp h⟩
    · rintro ⟨hC, hrest⟩
      exact (ih (hinv a s hI) ((hstep a s hI hP).mpr hC)).mpr hrest

/-- What takes the new value of a measure into account at every step is the greatest value the
measure has had along the run. -/
theorem run_isGreatest {β : Type*} [LinearOrder β] {step : α → σ → σ} {C : α → σ → Prop}
    {I : σ → Prop} (mark measure : σ → β) (hinv : ∀ a s, C a s → I s → I (step a s))
    (hstep : ∀ a s, C a s → I s → mark (step a s) = max (mark s) (measure (step a s)))
    {ops : List α} {s : σ} (hops : Meets step C ops s) (hI : I s) (hmark : mark s = measure s) :
    IsGreatest {x | ∃ before, before <+: ops ∧ x = measure (run step before s)}
      (mark (run step ops s)) := by
  induction ops using List.reverseRecOn with
  | nil =>
    refine ⟨⟨[], List.nil_prefix, hmark⟩, ?_⟩
    rintro x ⟨before, hbefore, rfl⟩
    rw [List.prefix_nil.mp hbefore]
    exact hmark.ge
  | append_singleton ops a ih =>
    obtain ⟨hbefore, ha⟩ := hops.append
    have hlast : mark (run step (ops ++ [a]) s) =
        max (mark (run step ops s)) (measure (run step (ops ++ [a]) s)) := by
      rw [run_append]
      exact hstep a _ ha.1 (run_invariant hinv hbefore hI)
    obtain ⟨⟨best, hbest, heq⟩, hupper⟩ := ih hbefore
    rw [hlast]
    constructor
    · rcases max_choice (mark (run step ops s)) (measure (run step (ops ++ [a]) s)) with hmax | hmax
      · exact ⟨best, hbest.trans (List.prefix_append ops [a]), hmax.trans heq⟩
      · exact ⟨ops ++ [a], List.prefix_rfl, hmax⟩
    · rintro x ⟨before, hprefix, rfl⟩
      rcases List.prefix_concat_iff.mp hprefix with rfl | hprefix
      · exact le_max_right _ _
      · exact (hupper ⟨before, hprefix, rfl⟩).trans (le_max_left _ _)

/-- Two ways to split a list at an element: at the same place or one before the other. -/
theorem split_cases {xs ys xs' ys' : List α} {x y : α}
    (h : xs ++ x :: xs' = ys ++ y :: ys') :
    (xs = ys ∧ x = y) ∨ (∃ zs, ys = xs ++ x :: zs) ∨ ∃ zs, xs = ys ++ y :: zs := by
  rcases List.append_eq_append_iff.mp h with ⟨zs, rfl, hzs⟩ | ⟨zs, rfl, hzs⟩
  · cases zs with
    | nil => exact Or.inl ⟨by simp, (List.cons.inj hzs).1⟩
    | cons z zs =>
      obtain ⟨rfl, -⟩ := List.cons.inj hzs
      exact Or.inr (Or.inl ⟨zs, rfl⟩)
  · cases zs with
    | nil => exact Or.inl ⟨by simp, (List.cons.inj hzs).1.symm⟩
    | cons z zs =>
      obtain ⟨rfl, -⟩ := List.cons.inj hzs
      exact Or.inr (Or.inr ⟨zs, rfl⟩)

end Foundation
