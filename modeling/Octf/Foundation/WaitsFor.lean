import Mathlib.Logic.Relation

/-! Waiting for each other: a relation without paths of three steps has no cycle, and who waits
waits in the end for somebody who does not. -/
namespace Foundation
open Relation

variable {α : Type*} {r : α → α → Prop}

/-- No path has three steps. -/
def ShortWaits (r : α → α → Prop) : Prop := ∀ a b c d, r a b → r b c → ¬ r c d

namespace ShortWaits

theorem acyclic (h : ShortWaits r) (a : α) : ¬ TransGen r a a := by
  intro hcycle
  obtain ⟨b, hab, hba⟩ := TransGen.head'_iff.mp hcycle
  -- on the cycle every element has a next one
  have hnext : ∀ x, ReflTransGen r x a → ∃ y, r x y ∧ ReflTransGen r y a := by
    intro x hx
    rcases ReflTransGen.cases_head hx with rfl | hfirst
    · exact ⟨b, hab, hba⟩
    · exact hfirst
  obtain ⟨c, hbc, hca⟩ := hnext b hba
  obtain ⟨d, hcd, -⟩ := hnext c hca
  exact h a b c d hab hbc hcd

theorem exists_last (h : ShortWaits r) {a b : α} (hab : r a b) :
    ∃ z, TransGen r a z ∧ ∀ w, ¬ r z w := by
  by_cases hb : ∃ c, r b c
  · obtain ⟨c, hbc⟩ := hb
    exact ⟨c, (TransGen.single hab).tail hbc, fun d hcd => h a b c d hab hbc hcd⟩
  · exact ⟨b, TransGen.single hab, fun c hbc => hb ⟨c, hbc⟩⟩

end ShortWaits

end Foundation
