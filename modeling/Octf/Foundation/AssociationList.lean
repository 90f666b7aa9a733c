import Mathlib.Data.List.Nodup
import Mathlib.Tactic.Common

/-! A map as the list of its entries, where a key that is assigned again keeps its place. -/
namespace Foundation

variable {K V : Type*} [DecidableEq K]

def assign (k : K) (v : V) : List (K × V) → List (K × V)
  | [] => [(k, v)]
  | e :: es => if e.1 = k then (k, v) :: es else e :: assign k v es

def valueAt (k : K) (es : List (K × V)) : Option V := (es.find? fun e => e.1 = k).map Prod.snd

variable {k k' : K} {v : V} {es es' : List (K × V)}

@[simp] theorem valueAt_nil (k : K) : valueAt k ([] : List (K × V)) = none := rfl

theorem valueAt_cons (e : K × V) (es : List (K × V)) :
    valueAt k (e :: es) = if e.1 = k then some e.2 else valueAt k es := by
  unfold valueAt
  rw [List.find?_cons]
  by_cases h : e.1 = k <;> simp [h]

theorem valueAt_append : valueAt k (es ++ es') = (valueAt k es).or (valueAt k es') := by
  unfold valueAt
  rw [List.find?_append]
  cases es.find? fun e => decide (e.1 = k) <;> rfl

theorem valueAt_eq_none_iff : valueAt k es = none ↔ k ∉ es.map Prod.fst := by
  induction es with
  | nil => simp
  | cons e es ih =>
    rw [valueAt_cons, List.map_cons, List.mem_cons, not_or]
    by_cases h : e.1 = k
    · simp [h]
    · have hne : k ≠ e.1 := fun heq => h heq.symm
      rw [if_neg h, ih]
      exact ⟨fun hk => ⟨hne, hk⟩, And.right⟩

theorem valueAt_assign (k : K) (v : V) (es : List (K × V)) (k' : K) :
    valueAt k' (assign k v es) = if k = k' then some v else valueAt k' es := by
  induction es with
  | nil => simp [assign, valueAt_cons]
  | cons e es ih =>
    rw [assign]
    by_cases h : e.1 = k
    · rw [if_pos h, valueAt_cons, valueAt_cons, h]
      by_cases hk : k = k' <;> simp [hk]
    · rw [if_neg h, valueAt_cons, valueAt_cons, ih]
      by_cases hk : k = k'
      · subst hk
        simp [h]
      · simp [hk]

theorem keys_assign (k : K) (v : V) (es : List (K × V)) :
    (assign k v es).map Prod.fst =
      if k ∈ es.map Prod.fst then es.map Prod.fst else es.map Prod.fst ++ [k] := by
  induction es with
  | nil => simp [assign]
  | cons e es ih =>
    rw [assign]
    by_cases h : e.1 = k
    · simp [h]
    · have hne : k ≠ e.1 := fun heq => h heq.symm
      rw [if_neg h, List.map_cons, ih, List.map_cons]
      by_cases hk : k ∈ es.map Prod.fst <;> simp_all

theorem nodup_keys_assign (h : (es.map Prod.fst).Nodup) : ((assign k v es).map Prod.fst).Nodup := by
  rw [keys_assign]
  split
  · exact h
  · rename_i hnot
    refine List.nodup_append.mpr ⟨h, List.nodup_singleton k, fun a ha b hb heq => hnot ?_⟩
    exact List.mem_singleton.mp hb ▸ heq ▸ ha

theorem mem_of_valueAt (h : valueAt k es = some v) : (k, v) ∈ es := by
  obtain ⟨e, hfind, rfl⟩ := Option.map_eq_some_iff.mp h
  have hkey : e.1 = k := by simpa using List.find?_some hfind
  exact hkey ▸ List.mem_of_find?_eq_some hfind

theorem mem_assign {e : K × V} (h : e ∈ assign k v es) : e = (k, v) ∨ e ∈ es := by
  induction es with
  | nil => exact Or.inl (List.mem_singleton.mp h)
  | cons e' es ih =>
    rw [assign] at h
    split_ifs at h
    · rcases List.mem_cons.mp h with heq | hmem
      · exact Or.inl heq
      · exact Or.inr (List.mem_cons_of_mem e' hmem)
    · rcases List.mem_cons.mp h with heq | hmem
      · exact Or.inr (heq ▸ List.mem_cons_self)
      · exact (ih hmem).imp id (List.mem_cons_of_mem e')

/-- Maps with the same keys in the same places and the same values are the same. -/
theorem eq_of_valueAt (hkeys : es.map Prod.fst = es'.map Prod.fst)
    (hnodup : (es.map Prod.fst).Nodup)
    (h : ∀ k, valueAt k es = valueAt k es') : es = es' := by
  induction es generalizing es' with
  | nil => exact (List.map_eq_nil_iff.mp hkeys.symm).symm
  | cons e es ih =>
    cases es' with
    | nil => exact absurd hkeys (by simp)
    | cons e' es' =>
      obtain ⟨hfst, hrest⟩ := List.cons.inj hkeys
      obtain ⟨hnot, hnodup⟩ := List.nodup_cons.mp hnodup
      have hhead := h e.1
      rw [valueAt_cons, valueAt_cons, if_pos rfl, if_pos hfst.symm] at hhead
      have heq : e = e' := Prod.ext hfst (Option.some.inj hhead)
      subst heq
      refine congrArg _ (ih hrest hnodup fun k => ?_)
      have hk := h k
      rw [valueAt_cons, valueAt_cons] at hk
      by_cases heq : e.1 = k
      · subst heq
        rw [valueAt_eq_none_iff.mpr hnot, valueAt_eq_none_iff.mpr (hrest ▸ hnot)]
      · rwa [if_neg heq, if_neg heq] at hk

end Foundation
