import Mathlib.Data.List.Dedup
import Mathlib.Data.List.Induction
import Mathlib.Tactic.Common

/-! The distinct elements of a list, the one that occurs first at the very back: what is left of a
list that grows at its front by each new element. -/
namespace Foundation

variable {α : Type*} [DecidableEq α]

/-- One more element goes to the front, if it is new. -/
theorem dedup_reverse_append (l : List α) (a : α) :
    (l ++ [a]).reverse.dedup = if a ∈ l then l.reverse.dedup else a :: l.reverse.dedup := by
  rw [List.reverse_append, List.reverse_singleton, List.singleton_append]
  split
  · exact List.dedup_cons_of_mem (by simpa)
  · exact List.dedup_cons_of_notMem (by simpa)

/-- What stands further back occurs earlier. -/
theorem pairwise_dedup_reverse (l : List α) :
    l.reverse.dedup.Pairwise fun a b => l.idxOf b < l.idxOf a := by
  induction l using List.reverseRecOn with
  | nil => simp
  | append_singleton l a ih =>
    have hsame : ∀ b ∈ l.reverse.dedup, (l ++ [a]).idxOf b = l.idxOf b := by
      intro b hb
      exact List.idxOf_append_of_mem (by simpa using hb)
    have hkept : l.reverse.dedup.Pairwise fun b c => (l ++ [a]).idxOf c < (l ++ [a]).idxOf b := by
      refine ih.imp_of_mem ?_
      intro b c hb hc hlt
      rwa [hsame b hb, hsame c hc]
    rw [dedup_reverse_append]
    split
    · exact hkept
    · rename_i hnew
      refine List.pairwise_cons.mpr ⟨fun b hb => ?_, hkept⟩
      rw [hsame b hb, List.idxOf_append_of_notMem hnew, List.idxOf_cons_self]
      have hlt := List.idxOf_lt_length_of_mem (l := l) (a := b) (by simpa using hb)
      exact Nat.lt_of_lt_of_le hlt (Nat.le_add_right _ _)

/-- What stands in front of an element are the ones that occur first after it did. -/
theorem mem_front_iff {l front back : List α} {p q : α} (h : l.reverse.dedup = front ++ p :: back)
    (hq : q ∈ l) (hne : q ≠ p) : q ∈ front ↔ l.idxOf p < l.idxOf q := by
  have hpairwise := pairwise_dedup_reverse l
  rw [h, List.pairwise_append, List.pairwise_cons] at hpairwise
  obtain ⟨-, ⟨hback, -⟩, hfront⟩ := hpairwise
  constructor
  · intro hmem
    exact hfront q hmem p List.mem_cons_self
  · intro hlt
    have hq' : q ∈ front ++ p :: back := by simpa [← h] using hq
    rcases List.mem_append.mp hq' with hmem | hmem
    · exact hmem
    · have hmem := (List.mem_cons.mp hmem).resolve_left hne
      exact absurd (hback q hmem) (Nat.not_lt.mpr (Nat.le_of_lt hlt))

end Foundation
