import Mathlib.Data.List.Perm.Basic
import Mathlib.Logic.Relation
import Mathlib.Order.Lattice
import Octf.Foundation.OrderedSet

/-! Families of queues: the interleavings of all their elements, and merging by always
taking a smallest head. -/
namespace Foundation

/-- All elements of the queues, those of each queue in their order. -/
inductive Interleaving {α : Type*} : List (List α) → List α → Prop
  | done {queues} (h : ∀ q ∈ queues, q = []) : Interleaving queues []
  | take {before rest after x out} (h : Interleaving (before ++ rest :: after) out) :
      Interleaving (before ++ (x :: rest) :: after) (x :: out)

theorem Interleaving.perm {α : Type*} {queues : List (List α)} {out : List α}
    (h : Interleaving queues out) : out.Perm queues.flatten := by
  induction h with
  | done hall => rw [List.flatten_eq_nil_iff.mpr hall]
  | @take before rest after x out _ ih =>
    have hmove : (x :: (before ++ rest :: after).flatten).Perm
        (before ++ (x :: rest) :: after).flatten := by
      simp only [List.flatten_append, List.flatten_cons, List.cons_append]
      exact List.perm_middle.symm
    exact (ih.cons x).trans hmove

namespace Queues

variable {α β : Type*} [LinearOrder β] (key : α → β)

/-- The first element of every queue that has one. -/
def heads (queues : List (List α)) : List α := queues.filterMap List.head?

/-- No two heads share a key. -/
def HeadsDistinct (queues : List (List α)) : Prop := ((heads queues).map key).Nodup

/-- A head with the smallest key is taken. -/
inductive TakesSmallest : List (List α) → List (List α) → Prop
  | head {before rest after x} (h : ∀ y ∈ heads (before ++ (x :: rest) :: after), key x ≤ key y) :
      TakesSmallest (before ++ (x :: rest) :: after) (before ++ rest :: after)

/-- However far the queues are merged, no two heads ever share a key. -/
def NeverTies (queues : List (List α)) : Prop :=
  ∀ queues', Relation.ReflTransGen (TakesSmallest key) queues queues' → HeadsDistinct key queues'

variable {key}

theorem NeverTies.now {queues : List (List α)} (h : NeverTies key queues) :
    HeadsDistinct key queues := h queues .refl

theorem NeverTies.next {queues queues' : List (List α)} (h : NeverTies key queues)
    (hstep : TakesSmallest key queues queues') : NeverTies key queues' :=
  fun _ hreach => h _ (.head hstep hreach)

@[simp] theorem heads_append (xs ys : List (List α)) : heads (xs ++ ys) = heads xs ++ heads ys := by
  simp [heads]

@[simp] theorem heads_cons_nil (xs : List (List α)) : heads ([] :: xs) = heads xs := rfl

@[simp] theorem heads_cons_cons (x : α) (q : List α) (xs : List (List α)) :
    heads ((x :: q) :: xs) = x :: heads xs := rfl

/-- In sorted queues nothing comes before the smallest head. -/
theorem le_of_heads {queues : List (List α)} {x : α} (h : ∀ y ∈ heads queues, key x ≤ key y)
    (hsorted : ∀ q ∈ queues, q.Pairwise fun a b => key a ≤ key b) :
    ∀ y ∈ queues.flatten, key x ≤ key y := by
  intro y hy
  obtain ⟨q, hq, hyq⟩ := List.mem_flatten.mp hy
  cases q with
  | nil => exact absurd hyq List.not_mem_nil
  | cons z q =>
    have hz : key x ≤ key z := h z (List.mem_filterMap.mpr ⟨z :: q, hq, rfl⟩)
    rcases List.mem_cons.mp hyq with rfl | hyq
    · exact hz
    · exact hz.trans ((List.pairwise_cons.mp (hsorted _ hq)).1 y hyq)

/-- Of distinct heads only one is the smallest. -/
theorem TakesSmallest.unique {queues queues₁ queues₂ : List (List α)}
    (hdistinct : HeadsDistinct key queues) (h₁ : TakesSmallest key queues queues₁)
    (h₂ : TakesSmallest key queues queues₂) : queues₁ = queues₂ := by
  obtain @⟨before, rest, after, x, hx⟩ := h₁
  generalize heq : before ++ (x :: rest) :: after = queues at h₂ hx hdistinct
  obtain @⟨before', rest', after', x', hx'⟩ := h₂
  have hkey : key x = key x' := by
    apply le_antisymm
    · exact hx x' (by simp)
    · exact hx' x (by rw [← heq]; simp)
  have hclash : ∀ {as bs cs : List (List α)} {y z : α} {q r : List α}, key y = key z →
      ¬ HeadsDistinct key (as ++ (y :: q) :: (bs ++ (z :: r) :: cs)) := by
    intro as bs cs y z q r hyz hnodup
    simp only [HeadsDistinct, heads_append, heads_cons_cons, List.map_append,
      List.map_cons] at hnodup
    have htail := (List.nodup_append.mp hnodup).2.1
    exact (List.nodup_cons.mp htail).1 (by simp [hyz])
  rcases List.append_eq_append_iff.mp heq with ⟨ms, rfl, hms⟩ | ⟨ms, rfl, hms⟩
  · cases ms with
    | nil => simp_all
    | cons m ms =>
      obtain ⟨rfl, rfl⟩ := List.cons_eq_cons.mp hms
      rw [List.append_assoc] at hdistinct
      exact absurd hdistinct (hclash hkey)
  · cases ms with
    | nil => simp_all
    | cons m ms =>
      obtain ⟨rfl, rfl⟩ := List.cons_eq_cons.mp hms
      exact absurd hdistinct (hclash hkey.symm)

/-- Queues that share no key never tie. -/
theorem neverTies_of_disjoint {queues : List (List α)}
    (h : queues.Pairwise fun q r => ∀ x ∈ q, ∀ y ∈ r, key x ≠ key y) : NeverTies key queues := by
  intro queues' hreach
  have hpair : queues'.Pairwise fun q r => ∀ x ∈ q, ∀ y ∈ r, key x ≠ key y := by
    induction hreach with
    | refl => exact h
    | tail _ hstep ih =>
      obtain @⟨before, rest, after, x, _⟩ := hstep
      rw [List.pairwise_append, List.pairwise_cons] at ih ⊢
      obtain ⟨hbefore, ⟨hx, hafter⟩, hcross⟩ := ih
      refine ⟨hbefore, ⟨fun r hr a ha => hx r hr a (List.mem_cons_of_mem x ha), hafter⟩, ?_⟩
      intro q hq r hr a ha b hb
      rcases List.mem_cons.mp hr with rfl | hr
      · exact hcross q hq _ (List.mem_cons_self ..) a ha b (List.mem_cons_of_mem x hb)
      · exact hcross q hq r (List.mem_cons_of_mem _ hr) a ha b hb
  apply List.pairwise_map.mpr
  apply List.pairwise_filterMap.mpr
  apply hpair.imp
  intro q r hqr x hx y hy
  exact hqr x (List.mem_of_mem_head? hx) y (List.mem_of_mem_head? hy)

end Queues

end Foundation
