import Octf.Analytics.WorksetCalculator

/-! What `removeRange` does to the stored ranges, one by one: each is replaced by its parts
outside the removed range, unless it lies inside that range without being equal to it. -/
namespace Octf.Analytics
open Foundation Foundation.HalfOpen

/-- The stored ranges lie apart and below `2 ^ 64`. -/
structure Stored (ranges : List Range) : Prop where
  separated : Separated ranges
  lt : ∀ r ∈ ranges, r.end' < 2 ^ 64

namespace Range

theorem overlap_iff {m r : Range} :
    doRangesOverlap m r = true ↔ m.begin ≤ r.end' ∧ r.begin ≤ m.end' := by
  simp [doRangesOverlap]

/-- The comparator orders what lies apart. -/
theorem lt_iff {r m : Range} (hr : r.begin ≤ r.end') (hm : m.begin ≤ m.end') :
    lt r m = true ↔ r.end' < m.begin := by
  unfold lt
  split_ifs with h
  · rw [overlap_iff] at h
    simp
    omega
  · rw [overlap_iff] at h
    simp
    omega

theorem lt_eq_false {r m : Range} (hr : r.begin ≤ r.end') (hm : m.begin ≤ m.end')
    (h : m.begin ≤ r.end') : lt r m = false := by
  rw [Bool.eq_false_iff, Ne, lt_iff hr hm]
  omega

end Range

namespace WorksetCalculator

/-- A stored range that the removal passes over although it lies in the removed one. -/
def Missed (m r : Range) : Prop := m.begin ≤ r.begin ∧ r.end' ≤ m.end' ∧ r ≠ m

instance (m r : Range) : Decidable (Missed m r) := inferInstanceAs (Decidable (_ ∧ _ ∧ _))

/-- What the removal of `m` leaves of the stored range `r`. -/
def pieces (m r : Range) : List Range :=
  if Missed m r ∨ r.end' < m.begin ∨ m.end' < r.begin then [r]
  else if r.begin < m.begin then
    -- the right part touches the left one when `m` is empty, and is then refused
    if m.end' < r.end' ∧ m.begin < m.end' then [⟨r.begin, m.begin⟩, ⟨m.end', r.end'⟩]
    else [⟨r.begin, m.begin⟩]
  else if m.end' < r.end' then [⟨m.end', r.end'⟩]
  else []

/-- The length the removal of `m` counts for the stored range `r`. -/
def cut (m r : Range) : ℕ := if Missed m r then 0 else common r m

theorem pieces_of_apart {m r : Range} (h : r.end' < m.begin ∨ m.end' < r.begin) :
    pieces m r = [r] := if_pos (.inr h)

theorem cut_of_apart {m r : Range} (h : r.end' < m.begin ∨ m.end' < r.begin) :
    cut m r = 0 := by
  unfold cut common
  split_ifs <;> omega

/-- Ranges apart from the removed one stay as they are. -/
theorem flatMap_pieces_of_apart {m : Range} {ranges : List Range}
    (h : ∀ r ∈ ranges, r.end' < m.begin ∨ m.end' < r.begin) :
    ranges.flatMap (pieces m) = ranges ∧ (ranges.map (cut m)).sum = 0 := by
  constructor
  · rw [List.flatMap_congr fun y hy => pieces_of_apart (h y hy)]
    exact List.flatMap_singleton' _
  · rw [List.map_congr_left fun y hy => cut_of_apart (h y hy)]
    simp

theorem cut_le (m r : Range) : cut m r ≤ r.end' - r.begin := by
  unfold cut common
  split_ifs <;> omega

theorem pieces_bounds {m r : Range} (hr : r.begin < r.end') :
    ∀ p ∈ pieces m r, r.begin ≤ p.begin ∧ p.end' ≤ r.end' ∧ p.begin < p.end' := by
  intro p hp
  unfold pieces at hp
  split_ifs at hp with h1 h2 h3 h4
  · rw [List.mem_singleton.mp hp]
    omega
  · rcases List.mem_cons.mp hp with rfl | hp
    · simp only
      omega
    · rw [List.mem_singleton.mp hp]
      simp only
      omega
  · rw [List.mem_singleton.mp hp]
    simp only
    omega
  · rw [List.mem_singleton.mp hp]
    simp only
    omega
  · exact absurd hp List.not_mem_nil

theorem pieces_separated {m r : Range} (hr : r.begin < r.end') :
    Separated (pieces m r) := by
  refine ⟨?_, fun p hp => (pieces_bounds hr p hp).2.2⟩
  unfold pieces
  split_ifs with h1 h2 h3
  · exact List.pairwise_singleton ..
  · simpa using h3.2
  · exact List.pairwise_singleton ..
  · exact List.pairwise_singleton ..
  · exact List.Pairwise.nil

section Loop

variable {m r : Range} {before after : List Range} {acc : ℕ}

/-- Inserting a part of `r` where `r` was. -/
theorem insertAround_part {p : Range}
    (hbefore : ∀ y ∈ before, y.begin ≤ y.end' ∧ y.end' < p.begin)
    (hafter : ∀ y ∈ after, y.begin ≤ y.end' ∧ r.end' < y.begin)
    (hp : p.begin < p.end') (hpr : p.end' ≤ r.end') :
    OrderedSet.insertAround Range.lt p ⟨before, after⟩ = ⟨before ++ [p], after⟩ := by
  apply OrderedSet.insertAround_eq
  · intro y hy
    obtain ⟨hy1, hy2⟩ := hbefore y hy
    exact (Range.lt_iff hy1 hp.le).mpr hy2
  · intro y hy
    obtain ⟨hy1, hy2⟩ := hafter y (List.mem_of_mem_head? hy)
    exact ⟨Range.lt_eq_false hy1 hp.le (by omega), (Range.lt_iff hp.le hy1).mpr (by omega)⟩

/-- A split inside a range takes its length back off the count. -/
theorem sub64_part {p : Range} (hacc : acc < 2 ^ 64) (hp : p.end' < 2 ^ 64)
    (hle : p.begin ≤ p.end') (hpart : p.end' - p.begin ≤ acc) :
    sub64 acc (sub64 p.end' p.begin) = acc - (p.end' - p.begin) := by
  rw [sub64_of_le (a := p.end') hle hp, sub64_of_le hpart hacc]

/-- A range cut on its left side, and perhaps on its right side. -/
theorem removeRound_left (hbefore : ∀ y ∈ before, y.begin ≤ y.end' ∧ y.end' < r.begin)
    (hafter : ∀ y ∈ after, y.begin ≤ y.end' ∧ r.end' < y.begin) (hr64 : r.end' < 2 ^ 64)
    (hacc : acc ≤ r.begin) (hm : m.begin ≤ m.end') (hov : m.begin ≤ r.end')
    (hleft : r.begin < m.begin) :
    removeRound m r before after acc = (⟨before ++ pieces m r, after⟩, acc + cut m r) := by
  have hsum : add64 acc (sub64 r.end' r.begin) = acc + (r.end' - r.begin) := by
    rw [sub64_of_le (by omega) hr64, add64_of_lt (by omega)]
  have hmiss : ¬ Missed m r := fun h => absurd h.1 (by omega)
  have hbegin := insertAround_part (p := ⟨r.begin, m.begin⟩) hbefore hafter hleft hov
  have hback : sub64 (acc + (r.end' - r.begin)) (sub64 m.begin r.begin) =
      acc + (r.end' - r.begin) - (m.begin - r.begin) :=
    sub64_part (p := ⟨r.begin, m.begin⟩) (by omega) (show m.begin < 2 ^ 64 by omega)
      hleft.le (show m.begin - r.begin ≤ _ by omega)
  have hremove : (decide (r.begin < m.begin) || (decide (m.end' < r.end') ||
      (decide (r.end' = m.end') && decide (r.begin = m.begin)))) = true := by
    simp [hleft]
  unfold removeRound
  simp only [hremove, if_true]
  simp only [if_pos hleft, hsum, ne_of_lt hleft, ne_eq, not_false_iff, if_true, hbegin, hback]
  by_cases hright : m.end' < r.end'
  · have hback' : sub64 (acc + (r.end' - r.begin) - (m.begin - r.begin))
        (sub64 r.end' m.end') = acc + (m.end' - m.begin) := by
      rw [sub64_part (p := ⟨m.end', r.end'⟩) (by omega) hr64 hright.le
        (show r.end' - m.end' ≤ _ by omega)]
      simp only
      omega
    have hcut : cut m r = m.end' - m.begin := by
      rw [cut, if_neg hmiss, common]
      omega
    simp only [if_pos hright, ne_of_lt hright, not_false_iff, if_true, hback', hcut]
    rcases Nat.eq_or_lt_of_le hm with heq | hlt
    · -- the removed range is empty: the right part touches the left one
      have hrefused : OrderedSet.insertAround Range.lt ⟨m.end', r.end'⟩
          ⟨before ++ [⟨r.begin, m.begin⟩], after⟩ = ⟨before ++ [⟨r.begin, m.begin⟩], after⟩ :=
        OrderedSet.insertAround_refused (fun y hy => (Range.lt_iff (hbefore y hy).1
          hright.le).mpr (show y.end' < m.end' by have := (hbefore y hy).2; omega))
          (Range.lt_eq_false hleft.le hright.le heq.ge)
          (Range.lt_eq_false hright.le hleft.le (show r.begin ≤ r.end' by omega))
      have hpieces : pieces m r = [⟨r.begin, m.begin⟩] := by
        unfold pieces
        rw [if_neg (by rintro (h | h | h) <;> [exact hmiss h; omega; omega]), if_pos hleft,
          if_neg (by omega)]
      rw [hrefused, hpieces]
    · have hbefore' : ∀ y ∈ before ++ [(⟨r.begin, m.begin⟩ : Range)],
          y.begin ≤ y.end' ∧ y.end' < m.end' := by
        intro y hy
        rcases List.mem_append.mp hy with hy | hy
        · exact ⟨(hbefore y hy).1, by have := (hbefore y hy).2; omega⟩
        · rw [List.mem_singleton.mp hy]
          exact ⟨hleft.le, hlt⟩
      have hend := insertAround_part (p := ⟨m.end', r.end'⟩) hbefore' hafter hright le_rfl
      have hpieces : pieces m r = [⟨r.begin, m.begin⟩, ⟨m.end', r.end'⟩] := by
        unfold pieces
        rw [if_neg (by rintro (h | h | h) <;> [exact hmiss h; omega; omega]), if_pos hleft,
          if_pos ⟨hright, hlt⟩]
      rw [hend, hpieces, List.append_assoc]
      rfl
  · have hcut : cut m r = r.end' - m.begin := by
      rw [cut, if_neg hmiss, common]
      omega
    have hpieces : pieces m r = [⟨r.begin, m.begin⟩] := by
      unfold pieces
      rw [if_neg (by rintro (h | h | h) <;> [exact hmiss h; omega; omega]), if_pos hleft,
        if_neg (by omega)]
    have hsum' : acc + (r.end' - r.begin) - (m.begin - r.begin) = acc + (r.end' - m.begin) := by
      omega
    simp only [if_neg hright, Range.empty, not_true_eq_false, if_false, hpieces, hcut, hsum']

/-- A range that begins in the removed one. -/
theorem removeRound_right (hbefore : ∀ y ∈ before, y.begin ≤ y.end' ∧ y.end' < r.begin)
    (hafter : ∀ y ∈ after, y.begin ≤ y.end' ∧ r.end' < y.begin) (hr64 : r.end' < 2 ^ 64)
    (hr : r.begin < r.end') (hacc : acc ≤ r.begin) (hov : r.begin ≤ m.end')
    (hleft : m.begin ≤ r.begin) :
    removeRound m r before after acc = (⟨before ++ pieces m r, after⟩, acc + cut m r) := by
  have hsum : add64 acc (sub64 r.end' r.begin) = acc + (r.end' - r.begin) := by
    rw [sub64_of_le hr.le hr64, add64_of_lt (by omega)]
  unfold removeRound
  simp only [if_neg (not_lt.mpr hleft), decide_eq_false (not_lt.mpr hleft), Range.empty, hsum,
    Bool.false_or, ne_eq, not_true_eq_false, if_false]
  by_cases hright : m.end' < r.end'
  · have hmiss : ¬ Missed m r := fun h => absurd h.2.1 (by omega)
    have hbefore' : ∀ y ∈ before, y.begin ≤ y.end' ∧ y.end' < m.end' := fun y hy =>
      ⟨(hbefore y hy).1, by have := (hbefore y hy).2; omega⟩
    have hend := insertAround_part (p := ⟨m.end', r.end'⟩) hbefore' hafter hright le_rfl
    have hback : sub64 (acc + (r.end' - r.begin)) (sub64 r.end' m.end') =
        acc + (m.end' - r.begin) := by
      rw [sub64_part (p := ⟨m.end', r.end'⟩) (by omega) hr64 hright.le
        (show r.end' - m.end' ≤ _ by omega)]
      simp only
      omega
    have hcut : cut m r = m.end' - r.begin := by
      rw [cut, if_neg hmiss, common]
      omega
    have hpieces : pieces m r = [⟨m.end', r.end'⟩] := by
      unfold pieces
      rw [if_neg (by rintro (h | h | h) <;> [exact hmiss h; omega; omega]),
        if_neg (not_lt.mpr hleft), if_pos hright]
    simp only [decide_eq_true hright, Bool.true_or, if_true, if_pos hright, ne_of_lt hright,
      not_false_iff, hend, hback, hcut, hpieces]
  · by_cases heq : r = m
    · have hmiss : ¬ Missed m r := fun h => h.2.2 heq
      have hcut : cut m r = r.end' - r.begin := by
        rw [cut, if_neg hmiss, common, heq, min_self, max_self]
      have hpieces : pieces m r = [] := by
        unfold pieces
        rw [if_neg (by rintro (h | h | h) <;> [exact hmiss h; (rw [heq] at h; omega);
          (rw [heq] at h; omega)]), if_neg (not_lt.mpr hleft), if_neg hright]
      subst heq
      simp [hcut, hpieces]
    · have hmiss : Missed m r := ⟨hleft, not_lt.mp hright, heq⟩
      have hne : ¬ (r.end' = m.end' ∧ r.begin = m.begin) := by
        rintro ⟨he, hb⟩
        apply heq
        cases r
        cases m
        simp_all
      have hpieces : pieces m r = [r] := if_pos (.inl hmiss)
      have hcut : cut m r = 0 := if_pos hmiss
      have hkeep : (decide (m.end' < r.end') || (decide (r.end' = m.end') &&
          decide (r.begin = m.begin))) = false := by
        simp only [Bool.or_eq_false_iff, decide_eq_false_iff_not, ← Bool.decide_and]
        exact ⟨hright, hne⟩
      simp only [hkeep, Bool.false_eq_true, if_false, hpieces, hcut, Nat.add_zero]

/-- The loop replaces every range by its pieces and adds up the cuts. -/
theorem removeLoop_eq (hm : m.begin ≤ m.end') {fuel : ℕ} (hafter : Stored after)
    (hbefore : ∀ y ∈ before, y.begin ≤ y.end' ∧ ∀ r ∈ after, y.end' < r.begin)
    (hreach : ∀ r ∈ after, m.begin ≤ r.end') (hacc : ∀ r ∈ after, acc ≤ r.begin)
    (hfuel : after.length < fuel) :
    removeLoop m fuel ⟨before, after⟩ acc =
      some (before ++ after.flatMap (pieces m), acc + (after.map (cut m)).sum) := by
  induction after generalizing before acc fuel with
  | nil =>
    obtain ⟨fuel, rfl⟩ := Nat.exists_eq_succ_of_ne_zero (Nat.ne_of_gt hfuel)
    simp [removeLoop]
  | cons r after ih =>
    obtain ⟨fuel, rfl⟩ := Nat.exists_eq_succ_of_ne_zero
      (Nat.ne_of_gt (Nat.lt_of_le_of_lt (Nat.zero_le _) hfuel))
    have hmem : r ∈ r :: after := List.mem_cons_self ..
    have hrest : ∀ y ∈ after, y.begin ≤ y.end' ∧ r.end' < y.begin := fun y hy =>
      ⟨(hafter.separated.nonempty y (List.mem_cons_of_mem r hy)).le,
        hafter.separated.lt_of_mem hy⟩
    have hr := hafter.separated.nonempty r hmem
    have htail : Stored after :=
      ⟨hafter.separated.tail, fun y hy => hafter.lt y (List.mem_cons_of_mem r hy)⟩
    unfold removeLoop
    by_cases hov : Range.doRangesOverlap m r = true
    · have hround : removeRound m r before after acc =
          (⟨before ++ pieces m r, after⟩, acc + cut m r) := by
        have hb : ∀ y ∈ before, y.begin ≤ y.end' ∧ y.end' < r.begin := fun y hy =>
          ⟨(hbefore y hy).1, (hbefore y hy).2 r hmem⟩
        rw [Range.overlap_iff] at hov
        rcases Nat.lt_or_ge r.begin m.begin with hleft | hleft
        · exact removeRound_left hb hrest (hafter.lt r hmem) (hacc r hmem) hm hov.1 hleft
        · exact removeRound_right hb hrest (hafter.lt r hmem) hr (hacc r hmem) hov.2 hleft
      simp only [if_pos hov, hround]
      rw [ih htail ?_ (fun y hy => hreach y (List.mem_cons_of_mem r hy)) ?_ (by simpa using hfuel)]
      · simp only [List.append_assoc, List.flatMap_cons, List.map_cons, List.sum_cons,
          Nat.add_assoc]
      · intro y hy
        rcases List.mem_append.mp hy with hy | hy
        · exact ⟨(hbefore y hy).1, fun z hz => (hbefore y hy).2 z (List.mem_cons_of_mem r hz)⟩
        · obtain ⟨_, hend, hlt⟩ := pieces_bounds hr y hy
          exact ⟨hlt.le, fun z hz => lt_of_le_of_lt hend (hrest z hz).2⟩
      · intro y hy
        have hcut := cut_le m r
        have hlt := (hrest y hy).2
        have hle := hacc r hmem
        omega
    · -- the first range behind the removed one ends the loop
      have happart : ∀ y ∈ r :: after, m.end' < y.begin := by
        rw [Range.overlap_iff] at hov
        have hreach' := hreach r hmem
        intro y hy
        rcases List.mem_cons.mp hy with rfl | hy
        · omega
        · have hlt := (hrest y hy).2
          omega
      obtain ⟨hpieces, hcuts⟩ := flatMap_pieces_of_apart fun y hy => .inr (happart y hy)
      simp only [hov, Bool.false_eq_true, if_false, hpieces, hcuts, Nat.add_zero]

end Loop

/-- The stored ranges below the removed one, and the others. -/
theorem split_stored {m : Range} {ranges : List Range} (h : Separated ranges) :
    ∃ below others, ranges = below ++ others ∧ (∀ r ∈ below, r.end' < m.begin) ∧
      ∀ r ∈ others, m.begin ≤ r.end' := by
  induction ranges with
  | nil => exact ⟨[], [], rfl, by simp, by simp⟩
  | cons r ranges ih =>
    rcases Nat.lt_or_ge r.end' m.begin with hlt | hge
    · obtain ⟨below, others, heq, hb, ho⟩ := ih h.tail
      refine ⟨r :: below, others, by rw [heq]; rfl, ?_, ho⟩
      intro y hy
      rcases List.mem_cons.mp hy with rfl | hy
      · exact hlt
      · exact hb y hy
    · refine ⟨[], r :: ranges, rfl, by simp, ?_⟩
      intro y hy
      rcases List.mem_cons.mp hy with rfl | hy
      · exact hge
      · have hlt := h.lt_of_mem hy
        have hne := h.nonempty y (List.mem_cons_of_mem r hy)
        omega

/-- The search stops at the first stored range that overlaps `m`, if there is one. -/
theorem find_stored {m : Range} {ranges : List Range} (hm : m.begin ≤ m.end')
    (h : Separated ranges) :
    ∃ below others, ranges = below ++ others ∧ (∀ r ∈ below, r.end' < m.begin) ∧
      (∀ r ∈ others, m.begin ≤ r.end') ∧
      ((∃ r others', others = r :: others' ∧ r.begin ≤ m.end' ∧
          OrderedSet.find Range.lt m ranges = ⟨below, r :: others'⟩) ∨
        (∀ r ∈ others, m.end' < r.begin) ∧ OrderedSet.find Range.lt m ranges = ⟨ranges, []⟩) := by
  obtain ⟨below, others, rfl, hbelow, hothers⟩ := split_stored (m := m) h
  refine ⟨below, others, rfl, hbelow, hothers, ?_⟩
  obtain ⟨hsepb, hsep, _⟩ := h.append
  have hlt : ∀ z ∈ below, Range.lt z m = true := fun z hz =>
    (Range.lt_iff (hsepb.nonempty z hz).le hm).mpr (hbelow z hz)
  by_cases hfound : ∃ r others', others = r :: others' ∧ r.begin ≤ m.end'
  · obtain ⟨r, others', rfl, hr⟩ := hfound
    have hr' := (hsep.nonempty r (List.mem_cons_self ..)).le
    exact .inl ⟨r, others', rfl, hr, OrderedSet.find_eq hlt
      (Range.lt_eq_false hr' hm (hothers r (List.mem_cons_self ..)))
      (Range.lt_eq_false hm hr' hr)⟩
  · have hbehind : ∀ y ∈ others, m.end' < y.begin := by
      cases others with
      | nil => simp
      | cons r others' =>
        have hlt' : m.end' < r.begin := by
          by_contra hle
          exact hfound ⟨r, others', rfl, not_lt.mp hle⟩
        intro y hy
        rcases List.mem_cons.mp hy with rfl | hy
        · exact hlt'
        · have hlt := hsep.lt_of_mem hy
          have hne := hsep.nonempty r (List.mem_cons_self ..)
          omega
    apply Or.inr
    refine ⟨hbehind, OrderedSet.find_end hlt ?_⟩
    intro y hy
    have hy := List.mem_of_mem_head? hy
    have hy' := (hsep.nonempty y hy).le
    have hlt := hbehind y hy
    exact ⟨Range.lt_eq_false hy' hm (by omega), (Range.lt_iff hm hy').mpr hlt⟩

/-- What `removeRange` returns and stores. -/
theorem removeRange_eq {w : WorksetCalculator} (hw : Stored w.hitRanges) {begin length : ℕ}
    (h64 : begin + length < 2 ^ 64) :
    ∃ w', w.removeRange begin length =
        some ((w.hitRanges.map (cut ⟨begin, begin + length⟩)).sum, w') ∧
      w'.hitRanges = w.hitRanges.flatMap (pieces ⟨begin, begin + length⟩) := by
  have hrange : rangeOf begin length = ⟨begin, begin + length⟩ := by
    rw [rangeOf, add64_of_lt h64]
  have hm : begin ≤ begin + length := Nat.le_add_right ..
  obtain ⟨below, others, heq, hbelow, hothers, hfind⟩ :=
    find_stored (m := ⟨begin, begin + length⟩) hm hw.separated
  obtain ⟨hsepb, hsep, happart⟩ := Separated.append (heq ▸ hw.separated)
  obtain ⟨hpieces, hcuts⟩ := flatMap_pieces_of_apart
    (m := ⟨begin, begin + length⟩) fun r hr => .inl (hbelow r hr)
  unfold removeRange
  rw [hrange]
  rcases hfind with ⟨r, others', rfl, hr, hfind⟩ | ⟨hbehind, hfind⟩
  · have hstored : Stored (r :: others') :=
      ⟨hsep, fun y hy => hw.lt y (by rw [heq]; exact List.mem_append_right _ hy)⟩
    have hbefore : ∀ y ∈ below, y.begin ≤ y.end' ∧ ∀ r' ∈ r :: others', y.end' < r'.begin :=
      fun y hy => ⟨(hsepb.nonempty y hy).le, fun r' hr' => happart y hy r' hr'⟩
    have hfuel : (r :: others').length < w.hitRanges.length + 1 := by
      rw [heq, List.length_append]
      omega
    have hloop := removeLoop_eq (m := ⟨begin, begin + length⟩) hm hstored hbefore hothers
      (fun _ _ => Nat.zero_le _) hfuel
    have hkeep : (if w.isMaxFresh = true then w
        else { w with max := Nat.max w.getWorkset w.max, isMaxFresh := true }).hitRanges =
          w.hitRanges := by
      split_ifs <;> rfl
    have hall : w.hitRanges.flatMap (pieces ⟨begin, begin + length⟩) =
        below ++ (r :: others').flatMap (pieces ⟨begin, begin + length⟩) := by
      rw [heq, List.flatMap_append, hpieces]
    have hsum : (w.hitRanges.map (cut ⟨begin, begin + length⟩)).sum =
        0 + ((r :: others').map (cut ⟨begin, begin + length⟩)).sum := by
      rw [heq, List.map_append, List.sum_append, hcuts]
    simp only [hfind, List.isEmpty_cons, Bool.false_eq_true, if_false, hkeep, hloop, hall, hsum]
    exact ⟨_, rfl, rfl⟩
  · obtain ⟨hpieces', hcuts'⟩ := flatMap_pieces_of_apart
      (m := ⟨begin, begin + length⟩) fun r hr => .inr (hbehind r hr)
    have hall : w.hitRanges.flatMap (pieces ⟨begin, begin + length⟩) = w.hitRanges := by
      rw [heq, List.flatMap_append, hpieces, hpieces']
    have hsum : (w.hitRanges.map (cut ⟨begin, begin + length⟩)).sum = 0 := by
      rw [heq, List.map_append, List.sum_append, hcuts, hcuts']
    simp only [hfind, List.isEmpty_nil, if_true, hall, hsum]
    exact ⟨w, rfl, rfl⟩

end WorksetCalculator

end Octf.Analytics
