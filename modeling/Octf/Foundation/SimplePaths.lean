import Mathlib.Data.List.Nodup
import Mathlib.Data.Set.Card

/-! The paths of a graph that enter no vertex twice, as a depth-first search lists them. An edge may
end at no vertex. -/
namespace Foundation

variable {V E : Type*}

/-- Each edge starts where the one before it ends. -/
def EdgePath (edges : V → List E) (target : E → Option V) : V → List E → Prop
  | _, [] => True
  | v, e :: p => e ∈ edges v ∧ (p = [] ∨ ∃ w, target e = some w ∧ EdgePath edges target w p)

/-- The vertices that a path enters before its last edge. -/
def entered (target : E → Option V) (p : List E) : List V := p.dropLast.filterMap target

variable {edges : V → List E} {target : E → Option V} {stack : List V} {v w : V} {e : E}
  {p : List E}
  {n : ℕ}

@[simp] theorem entered_singleton : entered target [e] = [] := rfl

theorem entered_cons (hp : p ≠ []) :
    entered target (e :: p) = (target e).toList ++ entered target p := by
  rw [entered, List.dropLast_cons_of_ne_nil hp, List.filterMap_cons, entered]
  cases target e <;> rfl

variable [DecidableEq V]

/-- The paths from a vertex that enter no vertex twice and none of the stack, up to a length. -/
def simplePaths (edges : V → List E) (target : E → Option V) : ℕ → List V → V → List (List E)
  | 0, _, _ => []
  | n + 1, stack, v => (edges v).flatMap fun e => [e] ::
    (((target e).toList.filter (· ∉ stack)).flatMap fun w =>
      simplePaths edges target n (stack ++ [w]) w).map (e :: ·)

/-- A listed path: one edge, or one that enters a new vertex with a path from there. -/
theorem mem_simplePaths_succ : p ∈ simplePaths edges target (n + 1) stack v ↔
    ∃ e ∈ edges v, p = [e] ∨ ∃ w, target e = some w ∧ w ∉ stack ∧
      ∃ q ∈ simplePaths edges target n (stack ++ [w]) w, p = e :: q := by
  simp only [simplePaths, List.mem_flatMap, List.mem_cons, List.mem_map, List.mem_filter,
    Option.mem_toList, decide_eq_true_eq]
  constructor
  · rintro ⟨e, he, rfl | ⟨q, ⟨w, ⟨hw, hnew⟩, hq⟩, rfl⟩⟩
    · exact ⟨e, he, Or.inl rfl⟩
    · exact ⟨e, he, Or.inr ⟨w, hw, hnew, q, hq, rfl⟩⟩
  · rintro ⟨e, he, rfl | ⟨w, hw, hnew, q, hq, rfl⟩⟩
    · exact ⟨e, he, Or.inl rfl⟩
    · exact ⟨e, he, Or.inr ⟨q, ⟨w, ⟨hw, hnew⟩, hq⟩, rfl⟩⟩

theorem ne_nil_of_mem_simplePaths (h : p ∈ simplePaths edges target n stack v) : p ≠ [] := by
  cases n with
  | zero => exact absurd h List.not_mem_nil
  | succ n =>
    obtain ⟨e, -, rfl | ⟨w, -, -, q, -, rfl⟩⟩ := mem_simplePaths_succ.mp h <;> simp

/-- What is listed is a path that enters each vertex at most once, and none of the stack. -/
theorem simple_of_mem (h : p ∈ simplePaths edges target n stack v) :
    EdgePath edges target v p ∧ (entered target p).Nodup ∧ ∀ x ∈ entered target p, x ∉ stack := by
  induction n generalizing stack v p with
  | zero => exact absurd h List.not_mem_nil
  | succ n ih =>
    obtain ⟨e, he, rfl | ⟨w, hw, hnew, q, hq, rfl⟩⟩ := mem_simplePaths_succ.mp h
    · exact ⟨⟨he, Or.inl rfl⟩, List.nodup_nil, fun x hx => absurd hx List.not_mem_nil⟩
    · obtain ⟨hpath, hnodup, havoid⟩ := ih hq
      rw [entered_cons (ne_nil_of_mem_simplePaths hq), hw, Option.toList_some,
        List.singleton_append]
      refine ⟨⟨he, Or.inr ⟨w, hw, hpath⟩⟩, List.nodup_cons.mpr ⟨fun hmem => ?_, hnodup⟩, ?_⟩
      · exact havoid w hmem (by simp)
      · intro x hx
        rcases List.mem_cons.mp hx with rfl | hx
        · exact hnew
        · exact fun hmem => havoid x hx (List.mem_append_left _ hmem)

/-- All such paths up to the length are listed. -/
theorem mem_of_simple (hne : p ≠ []) (hpath : EdgePath edges target v p)
    (hnodup : (entered target p).Nodup) (havoid : ∀ x ∈ entered target p, x ∉ stack)
    (hlength : p.length ≤ n) : p ∈ simplePaths edges target n stack v := by
  induction p generalizing stack v n with
  | nil => exact absurd rfl hne
  | cons e p ih =>
    cases n with
    | zero => cases hlength
    | succ n =>
      obtain ⟨he, hend⟩ := hpath
      refine mem_simplePaths_succ.mpr ⟨e, he, ?_⟩
      by_cases hp : p = []
      · exact Or.inl (by rw [hp])
      · obtain ⟨w, hw, hrest⟩ := hend.resolve_left hp
        rw [entered_cons hp, hw, Option.toList_some, List.singleton_append] at hnodup havoid
        obtain ⟨hnew, hnodup⟩ := List.nodup_cons.mp hnodup
        refine Or.inr ⟨w, hw, havoid w List.mem_cons_self, p, ?_, rfl⟩
        refine ih hp hrest hnodup (fun x hx hmem => ?_) (Nat.le_of_succ_le_succ hlength)
        rcases List.mem_append.mp hmem with hmem | hmem
        · exact havoid x (List.mem_cons_of_mem _ hx) hmem
        · exact hnew (List.mem_singleton.mp hmem ▸ hx)

omit [DecidableEq V] in
/-- A path enters a vertex with each of its edges but the last. -/
theorem length_entered (hpath : EdgePath edges target v p) :
    (entered target p).length = p.length - 1 := by
  induction p generalizing v with
  | nil => rfl
  | cons e p ih =>
    by_cases hp : p = []
    · rw [hp]
      rfl
    · obtain ⟨w, hw, hrest⟩ := hpath.2.resolve_left hp
      have hpos := List.length_pos_iff.mpr hp
      rw [entered_cons hp, hw, Option.toList_some, List.length_append, ih hrest,
        List.length_singleton, List.length_cons]
      omega

/-- With a bound for the vertices that are not on the stack, all such paths are listed. -/
theorem mem_simplePaths [Finite V] (h : {x | x ∉ stack}.ncard < n) :
    p ∈ simplePaths edges target n stack v ↔ p ≠ [] ∧ EdgePath edges target v p ∧
      (entered target p).Nodup ∧ ∀ x ∈ entered target p, x ∉ stack := by
  constructor
  · exact fun hp => ⟨ne_nil_of_mem_simplePaths hp, simple_of_mem hp⟩
  · rintro ⟨hne, hpath, hnodup, havoid⟩
    refine mem_of_simple hne hpath hnodup havoid ?_
    have hcard : (entered target p).toFinset.card ≤ {x | x ∉ stack}.ncard := by
      rw [← Set.ncard_coe_finset]
      exact Set.ncard_le_ncard fun x hx => havoid x (by simpa using hx)
    rw [List.toFinset_card_of_nodup hnodup, length_entered hpath] at hcard
    omega

theorem nodup_simplePaths (hedges : ∀ v, (edges v).Nodup) (n : ℕ) (stack : List V) (v : V) :
    (simplePaths edges target n stack v).Nodup := by
  induction n generalizing stack v with
  | zero => exact List.nodup_nil
  | succ n ih =>
    rw [simplePaths, List.nodup_flatMap]
    refine ⟨fun e _ => List.nodup_cons.mpr ⟨?_, ?_⟩, (hedges v).imp fun {e e'} hne => ?_⟩
    · -- the paths behind an edge are not empty
      intro hmem
      simp only [List.mem_map, List.mem_flatMap] at hmem
      obtain ⟨q, ⟨w, -, hq⟩, heq⟩ := hmem
      exact ne_nil_of_mem_simplePaths hq (List.cons.inj heq).2
    · refine List.Nodup.map (fun p q heq => (List.cons.inj heq).2) ?_
      cases target e with
      | none => exact List.nodup_nil
      | some w =>
        by_cases hw : w ∈ stack
        · simp [hw]
        · simpa [hw] using ih (stack ++ [w]) w
    · have hfirst : ∀ {f : E} {p : List E} {ps : List (List E)}, p ∈ [f] :: ps.map (f :: ·) →
          p.head? = some f := by
        intro f p ps hp
        rcases List.mem_cons.mp hp with rfl | hp
        · rfl
        · obtain ⟨q, -, rfl⟩ := List.mem_map.mp hp
          rfl
      intro p hp hp'
      exact hne (Option.some.inj ((hfirst hp).symm.trans (hfirst hp')))

omit [DecidableEq V] in
/-- One vertex more on the stack leaves one less to enter. -/
theorem ncard_notMem_append [Finite V] (hw : w ∉ stack) :
    {x | x ∉ stack ++ [w]}.ncard + 1 = {x | x ∉ stack}.ncard := by
  have hset : {x | x ∉ stack} = insert w {x | x ∉ stack ++ [w]} := by
    ext x
    by_cases hx : x = w
    · simp [hx, hw]
    · simp [hx]
  rw [hset, Set.ncard_insert_of_notMem (by simp)]

end Foundation
