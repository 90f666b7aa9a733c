import Mathlib.Data.List.Nodup
import Mathlib.Logic.Relation
import Mathlib.Order.Basic

/-! The order in which a depth-first walk of a graph reaches the vertices. The walk takes the first
vertex to do; one that was not reached before is reached, and its successors are done next. -/
namespace Foundation

variable {V : Type*} {succ : V → List V}

/-- From the vertices to do and those reached so far, to all that are reached. -/
inductive DepthFirst (succ : V → List V) : List V → List V → List V → Prop
  | done (seen : List V) : DepthFirst succ [] seen seen
  | skip {v : V} {todo seen order : List V} :
      v ∈ seen → DepthFirst succ todo seen order → DepthFirst succ (v :: todo) seen order
  | visit {v : V} {todo seen order : List V} :
      v ∉ seen → DepthFirst succ (succ v ++ todo) (seen ++ [v]) order →
        DepthFirst succ (v :: todo) seen order

/-- `w` is a successor of `v`. -/
def Edge (succ : V → List V) (v w : V) : Prop := w ∈ succ v

namespace DepthFirst

variable {todo seen order : List V}

theorem append {rest mid : List V} (h : DepthFirst succ todo seen mid)
    (hrest : DepthFirst succ rest mid order) : DepthFirst succ (todo ++ rest) seen order := by
  induction h with
  | done seen => exact hrest
  | skip hv _ ih => exact .skip hv (ih hrest)
  | visit hv _ ih =>
    have happend := ih hrest
    rw [List.append_assoc] at happend
    exact .visit hv happend

/-- A vertex, once its successors are done. -/
theorem single {v : V} (hv : v ∉ seen) (h : DepthFirst succ (succ v) (seen ++ [v]) order) :
    DepthFirst succ [v] seen order := by
  refine .visit hv ?_
  rwa [List.append_nil]

theorem isPrefix (h : DepthFirst succ todo seen order) : seen <+: order := by
  induction h with
  | done seen => exact List.prefix_rfl
  | skip _ _ ih => exact ih
  | visit _ _ ih => exact (List.prefix_append _ _).trans ih

theorem mem_of_seen (h : DepthFirst succ todo seen order) {v : V} (hv : v ∈ seen) : v ∈ order :=
  h.isPrefix.subset hv

theorem mem_of_todo (h : DepthFirst succ todo seen order) {v : V} (hv : v ∈ todo) :
    v ∈ order := by
  induction h with
  | done seen => exact absurd hv List.not_mem_nil
  | skip hseen hrest ih =>
    rcases List.mem_cons.mp hv with rfl | hv
    · exact hrest.mem_of_seen hseen
    · exact ih hv
  | visit _ hrest ih =>
    rcases List.mem_cons.mp hv with rfl | hv
    · exact hrest.mem_of_seen (by simp)
    · exact ih (List.mem_append_right _ hv)

/-- The successors of what the walk reaches are reached. -/
theorem succ_mem (h : DepthFirst succ todo seen order) {v w : V} (hv : v ∈ order)
    (hnew : v ∉ seen) (hw : w ∈ succ v) : w ∈ order := by
  induction h with
  | done seen => exact absurd hv hnew
  | skip _ _ ih => exact ih hv hnew
  | visit _ hrest ih =>
    rename_i u todo seen order _
    by_cases hvu : v = u
    · subst hvu
      exact hrest.mem_of_todo (List.mem_append_left _ hw)
    · exact ih hv (by simp [hnew, hvu])

theorem nodup (h : DepthFirst succ todo seen order) (hseen : seen.Nodup) : order.Nodup := by
  induction h with
  | done seen => exact hseen
  | skip _ _ ih => exact ih hseen
  | visit hv _ ih =>
    apply ih
    rw [List.nodup_append]
    refine ⟨hseen, List.nodup_singleton _, ?_⟩
    rintro a ha b hb rfl
    exact hv (List.mem_singleton.mp hb ▸ ha)

/-- Only what can be reached from the vertices to do is reached. -/
theorem reachable (h : DepthFirst succ todo seen order) {v : V} (hv : v ∈ order) :
    v ∈ seen ∨ ∃ u ∈ todo, Relation.ReflTransGen (Edge succ) u v := by
  induction h with
  | done seen => exact .inl hv
  | skip _ _ ih =>
    rcases ih hv with hseen | ⟨u, hu, hpath⟩
    · exact .inl hseen
    · exact .inr ⟨u, List.mem_cons_of_mem _ hu, hpath⟩
  | visit _ _ ih =>
    rename_i x todo seen order _ _
    rcases ih hv with hseen | ⟨u, hu, hpath⟩
    · rcases List.mem_append.mp hseen with hseen | hx
      · exact .inl hseen
      · obtain rfl := List.mem_singleton.mp hx
        exact .inr ⟨v, List.mem_cons_self, .refl⟩
    · rcases List.mem_append.mp hu with hsucc | hu
      · exact .inr ⟨x, List.mem_cons_self, .head hsucc hpath⟩
      · exact .inr ⟨u, List.mem_cons_of_mem _ hu, hpath⟩

/-- A whole walk reaches exactly what can be reached from where it begins. -/
theorem mem_iff (h : DepthFirst succ todo [] order) {v : V} :
    v ∈ order ↔ ∃ u ∈ todo, Relation.ReflTransGen (Edge succ) u v := by
  constructor
  · intro hv
    exact (h.reachable hv).resolve_left List.not_mem_nil
  · rintro ⟨u, hu, hpath⟩
    induction hpath with
    | refl => exact h.mem_of_todo hu
    | tail _ hedge ih => exact h.succ_mem ih List.not_mem_nil hedge

end DepthFirst

end Foundation
