import Octf.Analytics.RangeRemoval

/-! What `insertRange` does to the stored ranges: those that overlap or touch the new one
are merged with it. -/
namespace Octf.Analytics
open Foundation Foundation.HalfOpen

namespace WorksetCalculator

variable {m r : Range} {below rest : List Range}

/-- The loop takes the ranges that begin in the new one and reaches the last of their
ends. -/
theorem mergeLoop_eq (hrest : Separated rest)
    (hreach : ∀ r ∈ rest, m.begin ≤ r.end') (maxEnd : ℕ) :
    ∃ touched above E, rest = touched ++ above ∧ mergeLoop m maxEnd rest = (E, above) ∧
      (∀ r ∈ touched, r.begin ≤ m.end' ∧ r.end' ≤ E) ∧ (∀ r ∈ above, m.end' < r.begin) ∧
      maxEnd ≤ E ∧ (E = maxEnd ∨ ∃ r ∈ touched, E = r.end') := by
  induction rest generalizing maxEnd with
  | nil => exact ⟨[], [], maxEnd, rfl, rfl, by simp, by simp, le_rfl, .inl rfl⟩
  | cons r rest ih =>
    have hr := hreach r (List.mem_cons_self ..)
    by_cases hov : Range.doRangesOverlap m r = true
    · obtain ⟨touched, above, E, heq, hloop, htouched, habove, hle, hE⟩ :=
        ih hrest.tail (fun s hs => hreach s (List.mem_cons_of_mem r hs)) (Nat.max maxEnd r.end')
      have hmax : maxEnd ≤ E ∧ r.end' ≤ E := Nat.max_le.mp hle
      refine ⟨r :: touched, above, E, by rw [heq]; rfl, ?_, ?_, habove, hmax.1, ?_⟩
      · simp only [mergeLoop, hov, if_true, hloop]
      · intro s hs
        rcases List.mem_cons.mp hs with rfl | hs
        · exact ⟨(Range.overlap_iff.mp hov).2, hmax.2⟩
        · exact htouched s hs
      · rcases hE with hE | ⟨s, hs, hE⟩
        · rcases Nat.le_total maxEnd r.end' with h | h
          · exact .inr ⟨r, List.mem_cons_self .., by rw [hE]; exact Nat.max_eq_right h⟩
          · exact .inl (by rw [hE]; exact Nat.max_eq_left h)
        · exact .inr ⟨s, List.mem_cons_of_mem r hs, hE⟩
    · have hlt : m.end' < r.begin := by
        rw [Range.overlap_iff] at hov
        omega
      refine ⟨[], r :: rest, maxEnd, rfl, ?_, by simp, ?_, le_rfl, .inl rfl⟩
      · simp only [mergeLoop, hov, Bool.false_eq_true, if_false]
      · intro s hs
        rcases List.mem_cons.mp hs with rfl | hs
        · exact hlt
        · have hlt' := hrest.lt_of_mem hs
          have hne := hrest.nonempty r (List.mem_cons_self ..)
          omega

/-- A new range in a gap of the stored ones. -/
theorem insert_between (hbelow : Separated below) (hrest : Separated rest)
    (hm : m.begin < m.end') (hlt : ∀ r ∈ below, r.end' < m.begin)
    (hgt : ∀ r ∈ rest, m.end' < r.begin) :
    OrderedSet.insert Range.lt m (below ++ rest) = below ++ m :: rest := by
  apply OrderedSet.insert_eq
  · intro y hy
    exact (Range.lt_iff (hbelow.nonempty y hy).le hm.le).mpr (hlt y hy)
  · intro y hy
    have hy := List.mem_of_mem_head? hy
    have hy' := (hrest.nonempty y hy).le
    have hlt' := hgt y hy
    exact ⟨Range.lt_eq_false hy' hm.le (by omega), (Range.lt_iff hm.le hy').mpr hlt'⟩

/-- The merged range covers the new one and those it reaches, and nothing else. -/
theorem toSet_merged {touched : List Range} {E : ℕ} (hreach : m.begin ≤ r.end')
    (hr : r.begin ≤ m.end') (hne : r.begin < r.end')
    (htouched : ∀ t ∈ touched, t.begin ≤ m.end' ∧ t.end' ≤ E)
    (hbehind : ∀ t ∈ touched, r.end' < t.begin) (hmax : r.end' ≤ E ∧ m.end' ≤ E)
    (hE : E = Nat.max r.end' m.end' ∨ ∃ t ∈ touched, E = t.end') :
    toSet ⟨min r.begin m.begin, E⟩ = r.toSet ∪ covered touched ∪ m.toSet := by
  ext x
  constructor
  · rintro ⟨hx1, hx2⟩
    simp only at hx1 hx2
    rcases Nat.lt_or_ge x m.begin with h1 | h1
    · exact .inl (.inl ⟨by omega, by omega⟩)
    rcases Nat.lt_or_ge x m.end' with h2 | h2
    · exact .inr ⟨h1, h2⟩
    rcases hE with rfl | ⟨t, ht, rfl⟩
    · rcases lt_max_iff.mp hx2 with h | h
      · exact .inl (.inl ⟨hr.trans h2, h⟩)
      · exact absurd h (by omega)
    · exact .inl (.inr ⟨t, ht, (htouched t ht).1.trans h2, hx2⟩)
  · rintro ((⟨h1, h2⟩ | ⟨t, ht, h1, h2⟩) | ⟨h1, h2⟩)
    · exact ⟨(min_le_left ..).trans h1, lt_of_lt_of_le h2 hmax.1⟩
    · have hrt := hbehind t ht
      exact ⟨(min_le_left ..).trans (by omega), lt_of_lt_of_le h2 (htouched t ht).2⟩
    · exact ⟨(min_le_right ..).trans h1, lt_of_lt_of_le h2 hmax.2⟩

/-- Merging keeps the ranges apart and adds the new one. -/
theorem mergeRanges_spec (hm : m.begin < m.end') (hsep : Separated (below ++ r :: rest))
    (hlt : ∀ s ∈ below, s.end' < m.begin) (hreach : ∀ s ∈ r :: rest, m.begin ≤ s.end')
    (hr : r.begin ≤ m.end') :
    Separated (mergeRanges m ⟨below, r :: rest⟩) ∧
      covered (mergeRanges m ⟨below, r :: rest⟩) = covered (below ++ r :: rest) ∪ m.toSet ∧
      ∀ s ∈ mergeRanges m ⟨below, r :: rest⟩, s.end' ≤ m.end' ∨
        ∃ t ∈ below ++ r :: rest, s.end' ≤ t.end' := by
  obtain ⟨hsepb, hsepr, happart⟩ := hsep.append
  by_cases hsub : r.begin ≤ m.begin ∧ m.end' ≤ r.end'
  · -- the new range lies in a stored one
    have hsame : mergeRanges m ⟨below, r :: rest⟩ = below ++ r :: rest := by
      simp only [mergeRanges, if_pos hsub]
    rw [hsame]
    refine ⟨hsep, ?_, fun s hs => .inr ⟨s, hs, le_rfl⟩⟩
    have hin : m.toSet ⊆ covered (below ++ r :: rest) := fun x hx =>
      ⟨r, by simp, hsub.1.trans hx.1, lt_of_lt_of_le hx.2 hsub.2⟩
    rw [Set.union_eq_left.mpr hin]
  · obtain ⟨touched, above, E, heq, hloop, htouched, habove, hle, hE⟩ :=
      mergeLoop_eq hsepr.tail (fun s hs => hreach s (List.mem_cons_of_mem r hs))
        (Nat.max r.end' m.end')
    have hmax : r.end' ≤ E ∧ m.end' ≤ E := Nat.max_le.mp hle
    have hr0 := hreach r (List.mem_cons_self ..)
    have hsepa : Separated above := (heq ▸ hsepr.tail).append.2.1
    have hrest : ∀ s ∈ rest, r.end' < s.begin := fun s hs => hsepr.lt_of_mem hs
    -- the merged range ends below all that stays behind it
    have hend : ∀ s ∈ above, E < s.begin := by
      intro s hs
      have hs1 := hrest s (by rw [heq]; exact List.mem_append_right _ hs)
      have hs2 := habove s hs
      rcases hE with rfl | ⟨t, ht, rfl⟩
      · exact Nat.max_lt.mpr ⟨hs1, hs2⟩
      · exact (heq ▸ hsepr.tail).append.2.2 t ht s hs
    have hbegin : ∀ s ∈ below, s.end' < min r.begin m.begin := fun s hs =>
      lt_min (happart s hs r (List.mem_cons_self ..)) (hlt s hs)
    have hne : min r.begin m.begin < E := by omega
    have hresult : mergeRanges m ⟨below, r :: rest⟩ =
        below ++ ⟨min r.begin m.begin, E⟩ :: above := by
      simp only [mergeRanges, if_neg hsub, hloop]
      exact insert_between hsepb hsepa hne hbegin hend
    have hcovers : toSet ⟨min r.begin m.begin, E⟩ = r.toSet ∪ covered touched ∪ m.toSet :=
      toSet_merged hr0 hr (hsepr.nonempty r (List.mem_cons_self ..))
        htouched (fun t ht => hrest t (by rw [heq]; exact List.mem_append_left _ ht)) hmax hE
    rw [hresult]
    refine ⟨hsepb.insert hsepa hne hbegin hend, ?_, ?_⟩
    · rw [heq, covered_append, covered_cons, covered_append, covered_cons, covered_append, hcovers]
      ac_rfl
    · intro s hs
      rcases List.mem_append.mp hs with hs | hs
      · exact .inr ⟨s, by simp [hs], le_rfl⟩
      rcases List.mem_cons.mp hs with rfl | hs
      · rcases hE with rfl | ⟨t, ht, rfl⟩
        · rcases le_total r.end' m.end' with h | h
          · exact .inl (Nat.max_le.mpr ⟨h, le_rfl⟩)
          · exact .inr ⟨r, by simp, Nat.max_le.mpr ⟨le_rfl, h⟩⟩
        · exact .inr ⟨t, by simp [heq, ht], le_rfl⟩
      · exact .inr ⟨s, by simp [heq, hs], le_rfl⟩

/-- An insertion keeps the ranges stored and adds exactly the new one. -/
theorem insertRange_spec {w : WorksetCalculator} (hw : Stored w.hitRanges) {begin len : ℕ}
    (h64 : begin + len < 2 ^ 64) :
    Stored (w.insertRange begin len).hitRanges ∧
      covered (w.insertRange begin len).hitRanges =
        covered w.hitRanges ∪ Set.Ico begin (begin + len) := by
  by_cases hlen : len = 0
  · simp [insertRange, hlen, hw]
  have hrange : rangeOf begin len = ⟨begin, begin + len⟩ := by
    rw [rangeOf, add64_of_lt h64]
  have hm : begin < begin + len := by omega
  obtain ⟨below, others, heq, hbelow, hothers, hfind⟩ :=
    find_stored (m := ⟨begin, begin + len⟩) hm.le hw.separated
  obtain ⟨hsepb, hsep, happart⟩ := Separated.append (heq ▸ hw.separated)
  rcases hfind with ⟨r, others', rfl, hr, hfind⟩ | ⟨hbehind, hfind⟩
  · have hresult : (w.insertRange begin len).hitRanges =
        mergeRanges ⟨begin, begin + len⟩ ⟨below, r :: others'⟩ := by
      simp only [insertRange, if_neg hlen, hrange, hfind, List.isEmpty_cons, Bool.false_eq_true,
        if_false]
    obtain ⟨hsep', hcovered, hends⟩ := mergeRanges_spec (m := ⟨begin, begin + len⟩) hm
      (heq ▸ hw.separated) hbelow hothers hr
    rw [hresult]
    refine ⟨⟨hsep', fun s hs => ?_⟩, by rw [hcovered, heq]; rfl⟩
    rcases hends s hs with h | ⟨t, ht, h⟩
    · exact lt_of_le_of_lt h h64
    · exact lt_of_le_of_lt h (hw.lt t (by rw [heq]; exact ht))
  · have hresult : (w.insertRange begin len).hitRanges =
        below ++ ⟨begin, begin + len⟩ :: others := by
      simp only [insertRange, if_neg hlen, hrange, hfind, List.isEmpty_nil, if_true]
      rw [heq]
      exact insert_between hsepb hsep hm hbelow hbehind
    rw [hresult]
    refine ⟨⟨hsepb.insert hsep hm hbelow hbehind, ?_⟩, ?_⟩
    · intro s hs
      rcases List.mem_append.mp hs with hs | hs
      · exact hw.lt s (by rw [heq]; simp [hs])
      rcases List.mem_cons.mp hs with rfl | hs
      · exact h64
      · exact hw.lt s (by rw [heq]; simp [hs])
    · rw [heq, covered_append, covered_cons, covered_append, Set.union_assoc,
        Set.union_comm (covered others), toSet]

end WorksetCalculator

end Octf.Analytics
