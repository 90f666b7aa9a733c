import Mathlib.Data.List.Basic

/-! The first element of a list with a property. -/
namespace Foundation

/-- The first element with one of two properties, when the ones with the second are never before
the ones with the first. -/
theorem find?_or_of_pairwise {α : Type*} {p q : α → Bool} {l : List α}
    (h : l.Pairwise fun a b => q a = true → p b = false) :
    l.find? (fun a => p a || q a) = (l.find? p).or (l.find? q) := by
  induction l with
  | nil => rfl
  | cons a l ih =>
    obtain ⟨hhead, htail⟩ := List.pairwise_cons.mp h
    simp only [List.find?_cons]
    cases hp : p a with
    | true => rfl
    | false =>
      cases hq : q a with
      | false => exact ih htail
      | true =>
        have hnone : l.find? p = none := List.find?_eq_none.mpr fun b hb => by
          simp [hhead b hb hq]
        simp [hnone]

/-- No element with the property stands before the one that is found. -/
theorem pairwise_of_find? {α β : Type*} {p : α × β → Bool} {l : List (α × β)} {x : α × β}
    (hnodup : (l.map (·.1)).Nodup) (h : l.find? p = some x) :
    l.Pairwise fun a b => b.1 = x.1 → p a = false := by
  induction l with
  | nil => exact .nil
  | cons y l ih =>
    obtain ⟨hnot, hnodup⟩ := List.nodup_cons.mp hnodup
    rw [List.find?_cons] at h
    cases hp : p y with
    | false =>
      rw [hp] at h
      exact List.pairwise_cons.mpr ⟨fun b _ _ => hp, ih hnodup h⟩
    | true =>
      rw [hp] at h
      obtain rfl := Option.some.inj h
      have hother : ∀ b ∈ l, b.1 ≠ y.1 := fun b hb heq => hnot (List.mem_map.mpr ⟨b, hb, heq⟩)
      refine List.pairwise_cons.mpr ⟨fun b hb heq => absurd heq (hother b hb), ?_⟩
      exact List.pairwise_of_forall_mem_list fun a _ b hb heq => absurd heq (hother b hb)

end Foundation
