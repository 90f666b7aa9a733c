import Octf.Analytics.RangeInsertion

/-! When `removeRange` subtracts exactly the removed range and returns exactly what it took
away. -/
namespace Octf.Analytics
open Foundation Foundation.HalfOpen

namespace WorksetCalculator

/-- Removing nothing in the middle of a range. -/
def SplitsAtPoint (m r : Range) : Prop := m.begin = m.end' ∧ r.begin < m.begin ∧ m.begin < r.end'

instance (m r : Range) : Decidable (SplitsAtPoint m r) :=
  inferInstanceAs (Decidable (_ ∧ _ ∧ _))

section Pieces

variable {m r : Range} {ranges : List Range}

theorem covered_pieces_subset (hr : r.begin < r.end') : covered (pieces m r) ⊆ r.toSet := by
  rintro x ⟨p, hp, hx1, hx2⟩
  obtain ⟨hbegin, hend, _⟩ := pieces_bounds hr p hp
  exact ⟨hbegin.trans hx1, hx2.trans_le hend⟩

/-- A range that is neither missed nor split at a point loses exactly the removed part. -/
theorem covered_pieces (hm : m.begin ≤ m.end') (hmiss : ¬ Missed m r)
    (hsplit : ¬ SplitsAtPoint m r) : covered (pieces m r) = r.toSet \ m.toSet := by
  unfold SplitsAtPoint at hsplit
  have hmiss' : m.begin ≤ r.begin → r.end' ≤ m.end' → r = m := fun h1 h2 => by
    by_contra hne
    exact hmiss ⟨h1, h2, hne⟩
  ext x
  unfold pieces
  split_ifs with hkeep hleft hboth hright
  · simp only [covered_cons, covered_nil, Set.union_empty, Set.mem_sdiff, mem_toSet]
    rcases hkeep with h | h
    · exact absurd h hmiss
    · omega
  · simp only [covered_cons, covered_nil, Set.union_empty, Set.mem_union, Set.mem_sdiff, mem_toSet]
    omega
  · simp only [covered_cons, covered_nil, Set.union_empty, Set.mem_sdiff, mem_toSet]
    omega
  · simp only [covered_cons, covered_nil, Set.union_empty, Set.mem_sdiff, mem_toSet]
    omega
  · rw [hmiss' (not_lt.mp hleft) (not_lt.mp hright)]
    simp

/-- A missed range keeps its first sector, which lies in the removed range. -/
theorem begin_mem_of_missed (hr : r.begin < r.end') (h : Missed m r) :
    r.begin ∈ covered (pieces m r) ∧ r.begin ∈ m.toSet := by
  have hpieces : pieces m r = [r] := if_pos (.inl h)
  rw [hpieces, covered_cons, covered_nil, Set.union_empty]
  exact ⟨⟨le_rfl, hr⟩, h.1, hr.trans_le h.2.1⟩

/-- A range split at a point loses the sector there, although nothing is removed. -/
theorem begin_notMem_of_splits (h : SplitsAtPoint m r) :
    m.begin ∉ covered (pieces m r) ∧ m.begin ∈ r.toSet \ m.toSet := by
  obtain ⟨heq, hleft, hright⟩ := h
  have hpieces : pieces m r = [⟨r.begin, m.begin⟩] := by
    unfold pieces
    rw [if_neg (by rintro (h | h | h) <;> [exact absurd h.1 (by omega); omega; omega]),
      if_pos hleft, if_neg (by omega)]
  rw [hpieces, covered_cons, covered_nil, Set.union_empty]
  simp only [mem_toSet, Set.mem_sdiff]
  omega

theorem mem_covered_flatMap {x : ℕ} :
    x ∈ covered (ranges.flatMap (pieces m)) ↔ ∃ r ∈ ranges, x ∈ covered (pieces m r) := by
  simp only [mem_covered, List.mem_flatMap]
  constructor
  · rintro ⟨p, ⟨r, hr, hp⟩, hx⟩
    exact ⟨r, hr, p, hp, hx⟩
  · rintro ⟨r, hr, p, hp, hx⟩
    exact ⟨p, ⟨r, hr, hp⟩, hx⟩

/-- The pieces cover the difference just when no range is missed or split at a point. -/
theorem covered_flatMap_pieces_iff (hm : m.begin ≤ m.end') (h : Separated ranges) :
    covered (ranges.flatMap (pieces m)) = covered ranges \ m.toSet ↔
      ∀ r ∈ ranges, ¬ Missed m r ∧ ¬ SplitsAtPoint m r := by
  constructor
  · intro heq r hr
    have hne := h.nonempty r hr
    constructor
    · intro hmiss
      obtain ⟨hkept, hin⟩ := begin_mem_of_missed hne hmiss
      have hx : r.begin ∈ covered ranges \ m.toSet :=
        heq ▸ mem_covered_flatMap.mpr ⟨r, hr, hkept⟩
      exact hx.2 hin
    · intro hsplit
      obtain ⟨hlost, hin⟩ := begin_notMem_of_splits hsplit
      have hx : m.begin ∈ covered (ranges.flatMap (pieces m)) :=
        heq ▸ ⟨⟨r, hr, hin.1⟩, hin.2⟩
      -- no other range can hold the lost sector
      obtain ⟨s, hs, hxs⟩ := mem_covered_flatMap.mp hx
      have hsr := h.eq_of_mem hs hr (covered_pieces_subset (h.nonempty s hs) hxs) hin.1
      exact hlost (hsr ▸ hxs)
  · intro hall
    ext x
    rw [mem_covered_flatMap]
    constructor
    · rintro ⟨r, hr, hx⟩
      rw [covered_pieces hm (hall r hr).1 (hall r hr).2] at hx
      exact ⟨⟨r, hr, hx.1⟩, hx.2⟩
    · rintro ⟨⟨r, hr, hx⟩, hxm⟩
      refine ⟨r, hr, ?_⟩
      rw [covered_pieces hm (hall r hr).1 (hall r hr).2]
      exact ⟨hx, hxm⟩

theorem sum_cut (h : Separated ranges) (hmiss : ∀ r ∈ ranges, ¬ Missed m r) :
    (ranges.map (cut m)).sum = count ranges m := by
  rw [h.count_eq]
  congr 1
  exact List.map_congr_left fun r hr => if_neg (hmiss r hr)

end Pieces

/-- Every call keeps the ranges apart and below `2 ^ 64`. -/
theorem step_stored {w : WorksetCalculator} (hw : Stored w.hitRanges) {op : Op} (hop : op.Fits) :
    Stored (step op w).hitRanges := by
  cases op with
  | insertRange begin len => exact (insertRange_spec hw hop).1
  | removeRange begin length =>
    obtain ⟨w', hresult, hranges⟩ := removeRange_eq hw hop
    simp only [step, hresult, hranges]
    have hbounds := fun r hr => pieces_bounds (m := ⟨begin, begin + length⟩)
      (hw.separated.nonempty r hr)
    constructor
    · exact hw.separated.flatMap (fun r hr => pieces_separated (hw.separated.nonempty r hr))
        fun r hr p hp => ⟨(hbounds r hr p hp).1, (hbounds r hr p hp).2.1⟩
    · intro p hp
      obtain ⟨r, hr, hp⟩ := List.mem_flatMap.mp hp
      exact lt_of_le_of_lt (hbounds r hr p hp).2.1 (hw.lt r hr)

theorem run_stored {ops : List Op} (hops : ∀ op ∈ ops, op.Fits) :
    Stored (run step ops new).hitRanges := by
  apply run_invariant (C := fun (op : Op) _ => op.Fits)
    (P := fun (w : WorksetCalculator) => Stored w.hitRanges)
  · intro op w hop hw
    exact step_stored hw hop
  · exact meets_of_forall hops new
  · exact ⟨Separated.nil, by simp [new]⟩

/-- The call ends, takes exactly the given range off the covered sectors, and returns the
number of sectors it took. -/
def RemovesExactly (w : WorksetCalculator) (begin length : ℕ) : Prop :=
  ∃ n w', w.removeRange begin length = some (n, w') ∧
    covered w'.hitRanges = covered w.hitRanges \ Set.Ico begin (begin + length) ∧
    n = (covered w.hitRanges ∩ Set.Ico begin (begin + length)).ncard

/-- After any calls, a removal is exact just when every stored range inside the removed one
equals it, and an empty removal does not fall inside a stored range. -/
theorem removeRange_exact_iff (ops : List Op) (hops : ∀ op ∈ ops, op.Fits) (begin length : ℕ)
    (h64 : begin + length < 2 ^ 64) :
    RemovesExactly (run step ops new) begin length ↔
      (∀ r ∈ (run step ops new).hitRanges, begin ≤ r.begin → r.end' ≤ begin + length →
        r = ⟨begin, begin + length⟩) ∧
      (length = 0 → ∀ r ∈ (run step ops new).hitRanges, ¬ (r.begin < begin ∧ begin < r.end')) := by
  have hw := run_stored hops
  generalize run step ops new = w at hw ⊢
  obtain ⟨w', hresult, hranges⟩ := removeRange_eq hw h64
  have hm : begin ≤ begin + length := Nat.le_add_right ..
  have hiff := covered_flatMap_pieces_iff (m := ⟨begin, begin + length⟩) hm hw.separated
  have hexact : RemovesExactly w begin length ↔
      ∀ r ∈ w.hitRanges, ¬ Missed ⟨begin, begin + length⟩ r ∧
        ¬ SplitsAtPoint ⟨begin, begin + length⟩ r := by
    constructor
    · rintro ⟨n, w'', hresult', hcovered, _⟩
      obtain rfl : w' = w'' := by
        have heq := hresult.symm.trans hresult'
        simp only [Option.some.injEq, Prod.mk.injEq] at heq
        exact heq.2
      exact hiff.mp (hranges ▸ hcovered)
    · intro hall
      refine ⟨_, w', hresult, ?_, sum_cut hw.separated fun r hr => (hall r hr).1⟩
      rw [hranges]
      exact hiff.mpr hall
  rw [hexact]
  constructor
  · intro hall
    constructor
    · intro r hr h1 h2
      by_contra hne
      exact (hall r hr).1 ⟨h1, h2, hne⟩
    · intro hlen r hr h
      exact (hall r hr).2 ⟨show begin = begin + length by omega, h⟩
  · rintro ⟨hinside, hpoint⟩ r hr
    constructor
    · rintro ⟨h1, h2, hne⟩
      exact hne (hinside r hr h1 h2)
    · rintro ⟨heq, h⟩
      exact hpoint (by simp only at heq; omega) r hr h

/-- Two ranges are stored, and a removal cuts a part out of each. -/
theorem removeRange_exact_iff_small :
    RemovesExactly (run step [.insertRange 0 10, .insertRange 20 10] new) 5 20 :=
  (removeRange_exact_iff [.insertRange 0 10, .insertRange 20 10]
    (by simp [Op.Fits]) 5 20 (by decide)).mpr (by decide)

/-- A removal around the only stored range returns 0 and leaves it where it is; an empty one
inside it drops its right part and returns 0 as well. -/
theorem removeRange_misses :
    (run step [.insertRange 10 10] new).removeRange 0 30 =
        some (0, ⟨[⟨10, 20⟩], 10, true⟩) ∧
      ¬ RemovesExactly (run step [.insertRange 10 10] new) 0 30 ∧
      (run step [.insertRange 10 10] new).removeRange 15 0 =
        some (0, ⟨[⟨10, 15⟩], 10, true⟩) ∧
      ¬ RemovesExactly (run step [.insertRange 10 10] new) 15 0 := by
  have hleft : run step [.insertRange 10 10] new = ⟨[⟨10, 20⟩], 0, false⟩ := by decide
  have haround : (run step [.insertRange 10 10] new).removeRange 0 30 =
      some (0, ⟨[⟨10, 20⟩], 10, true⟩) := by decide
  have hinside : (run step [.insertRange 10 10] new).removeRange 15 0 =
      some (0, ⟨[⟨10, 15⟩], 10, true⟩) := by decide
  refine ⟨haround, ?_, hinside, ?_⟩
  · rintro ⟨n, w', hresult, hcovered, _⟩
    obtain ⟨rfl, rfl⟩ : n = 0 ∧ w' = ⟨[⟨10, 20⟩], 10, true⟩ := by
      have heq := hresult.symm.trans haround
      simpa using heq
    have hx : 10 ∈ covered [(⟨10, 20⟩ : Range)] := by simp
    rw [hcovered] at hx
    exact hx.2 (by simp)
  · rintro ⟨n, w', hresult, hcovered, _⟩
    obtain ⟨rfl, rfl⟩ : n = 0 ∧ w' = ⟨[⟨10, 15⟩], 10, true⟩ := by
      have heq := hresult.symm.trans hinside
      simpa using heq
    have hx : 15 ∈ covered [(⟨10, 20⟩ : Range)] \ Set.Ico 15 15 := by simp
    rw [hleft] at hcovered
    rw [← hcovered] at hx
    simp at hx

end WorksetCalculator

end Octf.Analytics
