import Mathlib.Data.Fintype.Card
import Mathlib.Data.Set.Finite.Lattice
import Mathlib.Logic.Relation

/-! How deep the paths of a graph go from a vertex. With finitely many vertices a bound exists
unless a vertex on the way reaches itself. -/
namespace Foundation

variable {V : Type*} {edge : V → V → Prop} {v : V}

/-- All paths from a vertex have fewer than `n` edges. -/
def DepthBelow (edge : V → V → Prop) : ℕ → V → Prop
  | 0, _ => False
  | n + 1, v => ∀ w, edge v w → DepthBelow edge n w

theorem DepthBelow.mono {n k : ℕ} (h : DepthBelow edge n v) (hk : n ≤ k) : DepthBelow edge k v := by
  induction n generalizing v k with
  | zero => exact h.elim
  | succ n ih =>
    obtain ⟨k, rfl⟩ := Nat.exists_eq_add_of_le' hk
    exact fun w hw => ih (h w hw) (Nat.le_add_left n k)

theorem DepthBelow.acc {n : ℕ} (h : DepthBelow edge n v) : Acc (fun b a => edge a b) v := by
  induction n generalizing v with
  | zero => exact h.elim
  | succ n ih => exact Acc.intro v fun w hw => ih (h w hw)

/-- Without an endless path a bound exists, because each vertex has finitely many edges. -/
theorem exists_depthBelow_of_acc [Finite V] (h : Acc (fun b a => edge a b) v) :
    ∃ n, DepthBelow edge n v := by
  induction h with
  | intro v _ ih =>
    choose depth hdepth using ih
    obtain ⟨n, hn⟩ := (Set.finite_range fun w : {w // edge v w} => depth w w.2).bddAbove
    exact ⟨n + 1, fun w hw => (hdepth w hw).mono (hn ⟨⟨w, hw⟩, rfl⟩)⟩

theorem not_self_of_acc {r : V → V → Prop} (h : Acc r v) : ¬ r v v := by
  induction h with
  | intro v _ ih => exact fun hself => ih v hself hself

/-- Among finitely many vertices only a cycle makes an endless path. -/
theorem acc_of_no_cycle [Finite V]
    (h : ∀ w, Relation.ReflTransGen edge v w → ¬ Relation.TransGen edge w w) :
    Acc (fun b a => edge a b) v := by
  let below := fun b a => Relation.ReflTransGen edge v a ∧ Relation.TransGen edge a b
  have htrans : IsTrans V below :=
    ⟨fun a b c hab hbc => ⟨hbc.1, hbc.2.trans hab.2⟩⟩
  have hirrefl : Std.Irrefl below := ⟨fun a ha => h a ha.1 ha.2⟩
  have hwf : WellFounded below := Finite.wellFounded_of_trans_of_irrefl below
  have hall : ∀ w, Relation.ReflTransGen edge v w → Acc (fun b a => edge a b) w := by
    intro w
    induction w using hwf.induction with
    | h w ih => exact fun hw => Acc.intro w fun u hu => ih u ⟨hw, .single hu⟩ (hw.tail hu)
  exact hall v .refl

theorem exists_depthBelow_iff [Finite V] : (∃ n, DepthBelow edge n v) ↔
    ¬ ∃ w, Relation.ReflTransGen edge v w ∧ Relation.TransGen edge w w := by
  constructor
  · rintro ⟨n, hn⟩ ⟨w, hw, hcycle⟩
    have hacc : Acc (fun b a => edge a b) w := by
      clear hcycle
      induction hw with
      | refl => exact hn.acc
      | tail _ hedge ih => exact ih.inv hedge
    exact not_self_of_acc hacc.transGen (Relation.transGen_swap.mpr hcycle)
  · intro h
    exact exists_depthBelow_of_acc (acc_of_no_cycle fun w hw hcycle => h ⟨w, hw, hcycle⟩)

end Foundation
