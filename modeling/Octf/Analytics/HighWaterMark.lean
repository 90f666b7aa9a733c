import Octf.Analytics.IntervalSubtraction

/-! What `getWorkset` returns: the greatest number of sectors the stored ranges have had, which
for insertions alone is the number of sectors inserted so far. -/
namespace Octf.Analytics
open Foundation Foundation.HalfOpen

theorem Stored.bound {ranges : List Range} (h : Stored ranges) :
    ∀ r ∈ ranges, r.end' ≤ 2 ^ 64 - 1 := fun r hr => Nat.le_sub_one_of_lt (h.lt r hr)

namespace WorksetCalculator

/-- A call of the calculator; `getWorkset` is `const`. -/
inductive Call where
  | change (op : Op)
  | getWorkset

namespace Call

def step (call : Call) (w : WorksetCalculator) : WorksetCalculator :=
  match call with
  | .change op => WorksetCalculator.step op w
  | .getWorkset => w

def Fits : Call → Prop
  | .change op => op.Fits
  | .getWorkset => True

/-- A query, or an insertion that ends below `2 ^ 64`. -/
def Inserts : Call → Prop
  | .change (.insertRange begin len) => begin + len < 2 ^ 64
  | .change (.removeRange _ _) => False
  | .getWorkset => True

/-- The sectors a call inserts. -/
def sectors : Call → Set ℕ
  | .change (.insertRange begin len) => Set.Ico begin (begin + len)
  | _ => ∅

end Call

/-- The sectors inserted by at least one of the calls. -/
def inserted (calls : List Call) : Set ℕ := {x | ∃ call ∈ calls, x ∈ call.sectors}

/-! ### The cached maximum -/

theorem foldl_add64 (acc : ℕ) {ranges : List Range} (hlt : ∀ r ∈ ranges, r.end' < 2 ^ 64)
    (hne : ∀ r ∈ ranges, r.begin < r.end') (hsum : acc + total ranges < 2 ^ 64) :
    ranges.foldl (fun sum r => add64 sum (sub64 r.end' r.begin)) acc = acc + total ranges := by
  induction ranges generalizing acc with
  | nil => rfl
  | cons r ranges ih =>
    have htotal : total (r :: ranges) = r.end' - r.begin + total ranges := List.sum_cons
    have hhead := hlt r List.mem_cons_self
    have hnext : add64 acc (sub64 r.end' r.begin) = acc + (r.end' - r.begin) := by
      rw [sub64_of_le (hne r List.mem_cons_self).le hhead, add64_of_lt (by omega)]
    rw [List.foldl_cons, hnext, ih _ (fun s hs => hlt s (List.mem_cons_of_mem r hs))
      (fun s hs => hne s (List.mem_cons_of_mem r hs)) (by omega), htotal]
    omega

/-- The cached maximum is fresh only when it is at least what is stored. -/
structure Cached (w : WorksetCalculator) : Prop where
  stored : Stored w.hitRanges
  fresh : w.isMaxFresh = true → total w.hitRanges ≤ w.max

theorem Cached.getWorkset_eq {w : WorksetCalculator} (h : w.Cached) :
    w.getWorkset = Max.max w.max (total w.hitRanges) := by
  have hsum : 0 + total w.hitRanges < 2 ^ 64 := by
    have hle := h.stored.separated.total_le h.stored.bound
    omega
  unfold getWorkset
  split_ifs with hfresh
  · exact (max_eq_left (h.fresh hfresh)).symm
  · rw [foldl_add64 0 h.stored.lt h.stored.separated.nonempty hsum, Nat.zero_add]

/-- A removal either leaves the calculator as it is or takes the maximum before it shrinks the
ranges. -/
theorem removeRange_max {w w' : WorksetCalculator} {begin length n : ℕ}
    (h : w.removeRange begin length = some (n, w')) :
    w' = w ∨ w'.isMaxFresh = true ∧ w'.max = w.getWorkset := by
  unfold removeRange at h
  simp only at h
  split_ifs at h with hnone hfresh
  · exact Or.inl (by simpa using (Prod.mk.inj (Option.some.inj h)).2.symm)
  · right
    split at h
    · obtain ⟨-, rfl⟩ := Prod.mk.inj (Option.some.inj h)
      exact ⟨hfresh, by rw [getWorkset, if_pos hfresh]⟩
    · cases h
  · right
    split at h
    · obtain ⟨-, rfl⟩ := Prod.mk.inj (Option.some.inj h)
      refine ⟨rfl, Nat.max_eq_left ?_⟩
      rw [getWorkset, if_neg hfresh]
      exact Nat.le_max_left _ _
    · cases h

/-- A removal stores parts of what was stored. -/
theorem total_removeRange {w w' : WorksetCalculator} (hw : Stored w.hitRanges)
    {begin length n : ℕ} (h64 : begin + length < 2 ^ 64)
    (h : w.removeRange begin length = some (n, w')) (hw' : Stored w'.hitRanges) :
    total w'.hitRanges ≤ total w.hitRanges := by
  obtain ⟨v, hresult, hranges⟩ := removeRange_eq hw h64
  obtain rfl : v = w' := (Prod.mk.inj (Option.some.inj (hresult.symm.trans h))).2
  refine hw'.separated.total_mono hw.separated hw.bound ?_
  rw [hranges]
  intro x hx
  obtain ⟨r, hr, hpiece⟩ := mem_covered_flatMap.mp hx
  exact ⟨r, hr, covered_pieces_subset (hw.separated.nonempty r hr) hpiece⟩

theorem max_insertRange (w : WorksetCalculator) (begin len : ℕ) :
    (w.insertRange begin len).max = w.max := by
  unfold insertRange
  split_ifs <;> rfl

theorem total_insertRange {w : WorksetCalculator} (hw : Stored w.hitRanges) {begin len : ℕ}
    (h64 : begin + len < 2 ^ 64) :
    total w.hitRanges ≤ total (w.insertRange begin len).hitRanges := by
  obtain ⟨hstored, hcovered⟩ := insertRange_spec hw h64
  refine hw.separated.total_mono hstored.separated hstored.bound ?_
  rw [hcovered]
  exact Set.subset_union_left

theorem Cached.step {w : WorksetCalculator} (h : w.Cached) {call : Call} (hfits : call.Fits) :
    (call.step w).Cached := by
  cases call with
  | getWorkset => exact h
  | change op =>
    have hstored : Stored (WorksetCalculator.step op w).hitRanges := step_stored h.stored hfits
    refine ⟨hstored, fun hfresh => ?_⟩
    cases op with
    | insertRange begin len =>
      change total (w.insertRange begin len).hitRanges ≤ (w.insertRange begin len).max
      have hfresh' : (w.insertRange begin len).isMaxFresh = true := hfresh
      unfold insertRange at hfresh' ⊢
      split_ifs at hfresh' ⊢
      exact h.fresh hfresh'
    | removeRange begin length =>
      obtain ⟨w', hresult, -⟩ := removeRange_eq h.stored hfits
      have hnext : WorksetCalculator.step (.removeRange begin length) w = w' := by
        simp only [WorksetCalculator.step, hresult]
      have hle := total_removeRange h.stored hfits hresult (hnext ▸ hstored)
      change total (WorksetCalculator.step (.removeRange begin length) w).hitRanges ≤
        (WorksetCalculator.step (.removeRange begin length) w).max
      have hfresh' : (WorksetCalculator.step (.removeRange begin length) w).isMaxFresh = true :=
        hfresh
      rw [hnext] at hfresh' ⊢
      rcases removeRange_max hresult with rfl | ⟨-, hmax⟩
      · exact h.fresh hfresh'
      · rw [hmax, h.getWorkset_eq]
        exact hle.trans (le_max_right _ _)

/-- Every call reports the new total where it exceeds the maximum. -/
theorem Cached.getWorkset_step {w : WorksetCalculator} (h : w.Cached) {call : Call}
    (hfits : call.Fits) :
    (call.step w).getWorkset = Max.max w.getWorkset (total (call.step w).hitRanges) := by
  rw [(h.step hfits).getWorkset_eq, h.getWorkset_eq]
  cases call with
  | getWorkset => simp [Call.step]
  | change op =>
    cases op with
    | insertRange begin len =>
      have hle := total_insertRange h.stored hfits
      have hmax := max_insertRange w begin len
      change Max.max (w.insertRange begin len).max (total (w.insertRange begin len).hitRanges) =
        Max.max (Max.max w.max (total w.hitRanges)) (total (w.insertRange begin len).hitRanges)
      rw [hmax, max_assoc, max_eq_right hle]
    | removeRange begin length =>
      obtain ⟨w', hresult, -⟩ := removeRange_eq h.stored hfits
      have hnext : (Call.change (.removeRange begin length)).step w = w' := by
        simp only [Call.step, WorksetCalculator.step, hresult]
      rw [hnext]
      rcases removeRange_max hresult with rfl | ⟨-, hmax⟩
      · rw [max_assoc, max_self]
      · rw [hmax, h.getWorkset_eq]

theorem cached_new : new.Cached := ⟨⟨Separated.nil, by simp [new]⟩, fun _ => le_rfl⟩

theorem cached_run {calls : List Call} (hfits : ∀ call ∈ calls, call.Fits) :
    (run Call.step calls new).Cached :=
  run_invariant (C := fun call _ => Call.Fits call) (fun _ _ hcall h => h.step hcall)
    (meets_of_forall hfits new) cached_new

/-- After any calls the stored ranges are not empty, lie apart and are in the order of the
comparator, and `getWorkset` returns the most sectors that were stored after any of the calls. -/
theorem getWorkset_isGreatest (calls : List Call) (hfits : ∀ call ∈ calls, call.Fits) :
    (∀ r ∈ (run Call.step calls new).hitRanges, r.begin < r.end') ∧
      (run Call.step calls new).hitRanges.Pairwise
        (fun r s => Range.doRangesOverlap r s = false ∧ Range.lt r s = true) ∧
      IsGreatest {n | ∃ before, before <+: calls ∧ n = total (run Call.step before new).hitRanges}
        (run Call.step calls new).getWorkset := by
  have hcached := cached_run hfits
  have hne := hcached.stored.separated.nonempty
  refine ⟨hne, ?_, ?_⟩
  · refine hcached.stored.separated.apart.imp_of_mem fun {r s} hr hs hlt => ⟨?_, ?_⟩
    · rw [Bool.eq_false_iff, Ne, Range.overlap_iff]
      omega
    · exact (Range.lt_iff (hne r hr).le (hne s hs).le).mpr hlt
  · exact run_isGreatest (C := fun call _ => Call.Fits call) getWorkset
      (fun w => total w.hitRanges) (fun _ _ hcall h => h.step hcall)
      (fun _ _ hcall h => h.getWorkset_step hcall) (meets_of_forall hfits new) cached_new rfl

/-- A range is stored, cut in two, and another is inserted after the removal. -/
theorem getWorkset_isGreatest_cut :
    IsGreatest {n | ∃ before, before <+: [Call.change (.insertRange 0 100), .getWorkset,
        .change (.removeRange 10 80), .change (.insertRange 200 5)] ∧
          n = total (run Call.step before new).hitRanges}
      (run Call.step [Call.change (.insertRange 0 100), .getWorkset,
        .change (.removeRange 10 80), .change (.insertRange 200 5)] new).getWorkset :=
  (getWorkset_isGreatest _ (by simp [Call.Fits, Op.Fits])).2.2

/-! ### Insertions alone -/

theorem Call.Inserts.fits {call : Call} (h : call.Inserts) : call.Fits := by
  match call, h with
  | .change (.insertRange _ _), h => exact h
  | .getWorkset, _ => trivial

/-- What has been inserted, and that nothing has been cached. -/
structure Inserted (sectors : Set ℕ) (w : WorksetCalculator) : Prop where
  stored : Stored w.hitRanges
  covered : covered w.hitRanges = sectors
  uncached : w.max = 0

theorem Inserted.step {w : WorksetCalculator} {sectors : Set ℕ} (h : Inserted sectors w)
    {call : Call} (hcall : call.Inserts) : Inserted (sectors ∪ call.sectors) (call.step w) := by
  match call, hcall with
  | .change (.insertRange begin len), hcall =>
    obtain ⟨hstored, hcovered⟩ := insertRange_spec h.stored hcall
    refine ⟨hstored, ?_, (max_insertRange w begin len).trans h.uncached⟩
    rw [← h.covered]
    exact hcovered
  | .getWorkset, _ =>
    exact ⟨h.stored, by simpa [Call.sectors, Call.step] using h.covered, h.uncached⟩

theorem inserted_run {w : WorksetCalculator} {sectors : Set ℕ} (h : Inserted sectors w)
    {calls : List Call} (hcalls : ∀ call ∈ calls, call.Inserts) :
    Inserted (sectors ∪ inserted calls) (run Call.step calls w) := by
  induction calls generalizing w sectors with
  | nil => simpa [inserted] using h
  | cons call calls ih =>
    have hnext := ih (h.step (hcalls call List.mem_cons_self))
      fun other hother => hcalls other (List.mem_cons_of_mem call hother)
    have hsectors : inserted (call :: calls) = call.sectors ∪ inserted calls := by
      ext x
      simp [inserted]
    rw [hsectors, ← Set.union_assoc]
    exact hnext

/-- Without removals the working set is what is covered. -/
theorem Inserted.getWorkset_eq {w : WorksetCalculator} {sectors : Set ℕ} (h : Inserted sectors w)
    (hcached : w.Cached) : w.getWorkset = sectors.ncard := by
  rw [hcached.getWorkset_eq, h.uncached, Nat.zero_max, ← h.covered]
  exact h.stored.separated.total_eq h.stored.bound

theorem inserted_new : Inserted ∅ new := ⟨cached_new.stored, by simp [new], rfl⟩

/-- The working set is the number of sectors that lie in an inserted range, whatever the order of
the insertions, their repetitions and the queries between them. -/
theorem getWorkset_eq_ncard (calls : List Call) (hcalls : ∀ call ∈ calls, call.Inserts) :
    (run Call.step calls new).getWorkset = (inserted calls).ncard := by
  have hcached := cached_run fun call hcall => (hcalls call hcall).fits
  have hinserted := inserted_run inserted_new hcalls
  rw [Set.empty_union] at hinserted
  exact hinserted.getWorkset_eq hcached

theorem getWorkset_eq_ncard_touching :
    (run Call.step [Call.change (.insertRange 10 5), .change (.insertRange 0 0), .getWorkset,
        .change (.insertRange 15 5)] new).getWorkset =
      (inserted [Call.change (.insertRange 10 5), .change (.insertRange 0 0), .getWorkset,
        .change (.insertRange 15 5)]).ncard :=
  getWorkset_eq_ncard _ (by simp [Call.Inserts])

end WorksetCalculator

end Octf.Analytics
