import Mathlib.Algebra.Order.Field.Rat
import Mathlib.Data.Rat.Cast.Order
import Mathlib.Tactic.Linarith
import Mathlib.Tactic.NormNum
import Octf.Analytics.Histogram

/-! The percentiles of a distribution, found in one scan over its ranges, in exact arithmetic. The
scan weighs the ranges by the sums of their values, and looks at the table once more than it may. -/
namespace Octf.Analytics
open Foundation

namespace Distribution

structure StatisticsEntryValues where
  unit : String
  average : ℕ
  min : ℕ
  max : ℕ
  total : ℕ
  /-- In the order of their reports; the keys of the code are the texts of the percentiles. -/
  percentiles : List (ℚ × ℚ)

def PERCENTILES : List ℚ := [90, 99, 999 / 10, 9999 / 100]

/-- The variables of the scan, and the indices at which it has read the table. -/
structure Scan where
  iPercentile : ℕ
  sum : ℕ
  checkNextPercentile : Bool
  percentiles : List (ℚ × ℚ)
  reads : List ℕ

def Scan.start : Scan := ⟨0, 0, false, [], []⟩

end Distribution

/-- The approximation of the values in a range of the bucket. -/
def Bucket.middle (bucket : Bucket) (range : ℕ) : ℚ :=
  bucket.Begin + bucket.RangeSize * range +
    if bucket.RangeSize > 1 then (bucket.RangeSize : ℚ) / 2 else 0

namespace Distribution

section Scan

variable (total : ℕ)

/-- `sum > PERCENTILES[iPercentile] * total / 100.0` -/
def exceeds (sum : ℕ) (percentile : ℚ) : Bool := decide (percentile * total / 100 < sum)

/-- The inner loop of `getStatistics`, with a bound on its rounds. What is read behind the end of
the table does not matter, since the other part of the condition fails there. -/
def scanBucket (bucket : Bucket) : (rounds : ℕ) → (range : ℕ) → Scan → Option Scan
  | 0, _, _ => none
  | rounds + 1, range, s =>
    match bucket.Sum[range]? with
    | none => some s
    | some sum =>
      let s := if s.checkNextPercentile then s else { s with sum := s.sum + sum }
      let s := { s with reads := s.reads ++ [s.iPercentile] }
      match PERCENTILES[s.iPercentile]? with
      | some percentile =>
        if exceeds total s.sum percentile then
          scanBucket bucket rounds range { s with
            percentiles := s.percentiles ++ [(percentile, bucket.middle range)]
            iPercentile := s.iPercentile + 1
            checkNextPercentile := true }
        else scanBucket bucket rounds (range + 1) { s with checkNextPercentile := false }
      | none => scanBucket bucket rounds (range + 1) { s with checkNextPercentile := false }

/-- Every round goes on to the next range or to the next percentile. -/
def scan : List Bucket → Scan → Option Scan
  | [], s => some s
  | bucket :: buckets, s =>
    (scanBucket total bucket (bucket.Sum.length + PERCENTILES.length + 1) 0 s).bind (scan buckets)

end Scan

/-- The statistics, and the indices at which the table of percentiles has been read. -/
def getStatistics (d : Distribution) : Option (StatisticsEntryValues × List ℕ) :=
  let statistics : StatisticsEntryValues :=
    { unit := d.unit
      average := if d.count ≠ 0 then d.total / d.count else 0
      min := if d.count ≠ 0 then d.min else 0
      max := d.max
      total := d.total
      percentiles := [] }
  if d.count = 0 then some (statistics, [])
  else (scan d.total d.histogram .start).map fun s =>
    ({ statistics with percentiles := s.percentiles }, s.reads)

/-! ### The scan as a fold over the ranges -/

section Fold

variable {total : ℕ} {bucket : Bucket} {s : Scan}

/-- The percentiles that the sum exceeds next. -/
def due (total : ℕ) (s : Scan) : List ℚ :=
  (PERCENTILES.drop s.iPercentile).takeWhile (exceeds total s.sum)

/-- Report what the sum exceeds, all with one value, and look at the next percentile. -/
def settle (total : ℕ) (middle : ℚ) (s : Scan) : Scan where
  iPercentile := s.iPercentile + (due total s).length
  sum := s.sum
  checkNextPercentile := false
  percentiles := s.percentiles ++ (due total s).map fun percentile => (percentile, middle)
  reads := s.reads ++ List.range' s.iPercentile ((due total s).length + 1)

/-- A range with its middle and its weight. -/
def cellStep (total : ℕ) (s : Scan) (cell : ℚ × ℕ) : Scan :=
  settle total cell.1 { s with sum := s.sum + cell.2 }

def cells (bucket : Bucket) : List (ℚ × ℕ) :=
  bucket.Sum.zipIdx.map fun (sum, range) => (bucket.middle range, sum)

theorem settle_of_exceeds {percentile middle : ℚ}
    (hread : PERCENTILES[s.iPercentile]? = some percentile)
    (hexceeds : exceeds total s.sum percentile = true) :
    settle total middle s = settle total middle { s with
      reads := s.reads ++ [s.iPercentile]
      percentiles := s.percentiles ++ [(percentile, middle)]
      iPercentile := s.iPercentile + 1
      checkNextPercentile := true } := by
  obtain ⟨hlt, hget⟩ := List.getElem?_eq_some_iff.mp hread
  have hdrop : PERCENTILES.drop s.iPercentile =
      percentile :: PERCENTILES.drop (s.iPercentile + 1) := by
    rw [← hget]
    exact List.drop_eq_getElem_cons hlt
  have hdue : due total s = percentile :: due total { s with
      reads := s.reads ++ [s.iPercentile]
      percentiles := s.percentiles ++ [(percentile, middle)]
      iPercentile := s.iPercentile + 1
      checkNextPercentile := true } := by
    simp only [due, hdrop, List.takeWhile_cons_of_pos hexceeds]
  unfold settle
  rw [hdue]
  simp only [List.length_cons, List.map_cons, List.append_assoc, List.singleton_append,
    List.range'_succ, Scan.mk.injEq, and_true]
  omega

theorem settle_of_not_exceeds {middle : ℚ}
    (hnext : ∀ percentile, PERCENTILES[s.iPercentile]? = some percentile →
      exceeds total s.sum percentile = false) :
    settle total middle s = { s with
      reads := s.reads ++ [s.iPercentile]
      checkNextPercentile := false } := by
  have hdue : due total s = [] := by
    unfold due
    cases hread : PERCENTILES[s.iPercentile]? with
    | none =>
      rw [List.drop_eq_nil_of_le (List.getElem?_eq_none_iff.mp hread)]
      rfl
    | some percentile =>
      obtain ⟨hlt, hget⟩ := List.getElem?_eq_some_iff.mp hread
      rw [List.drop_eq_getElem_cons hlt, hget]
      exact List.takeWhile_cons_of_neg (by simp [hnext percentile hread])
  unfold settle
  rw [hdue]
  simp

/-- The inner loop, wherever it stands. -/
theorem scanBucket_eq {rounds range : ℕ} (hrounds : bucket.Sum.length - range +
      (PERCENTILES.length - s.iPercentile) < rounds)
    (hcheck : s.checkNextPercentile = true → range < bucket.Sum.length) :
    scanBucket total bucket rounds range s = some (
      if s.checkNextPercentile then
        ((cells bucket).drop (range + 1)).foldl (cellStep total)
          (settle total (bucket.middle range) s)
      else ((cells bucket).drop range).foldl (cellStep total) s) := by
  induction rounds generalizing range s with
  | zero => omega
  | succ rounds ih =>
    unfold scanBucket
    cases hsum : bucket.Sum[range]? with
    | none =>
      have hle := List.getElem?_eq_none_iff.mp hsum
      have hfalse : s.checkNextPercentile = false := by
        by_contra htrue
        have := hcheck (by simpa using htrue)
        omega
      have hnil : (cells bucket).drop range = [] := by
        apply List.drop_eq_nil_of_le
        simpa [cells] using hle
      simp [hfalse, hnil]
    | some sum =>
      obtain ⟨hlt, hget⟩ := List.getElem?_eq_some_iff.mp hsum
      have hcells : (cells bucket).drop range =
          (bucket.middle range, sum) :: (cells bucket).drop (range + 1) := by
        rw [List.drop_eq_getElem_cons (by simpa [cells] using hlt)]
        simp [cells, hget]
      -- the sum of the range is added unless it has been added already
      obtain ⟨s₁, hs₁, hindex⟩ : ∃ s₁, s₁ =
          (if s.checkNextPercentile then s else { s with sum := s.sum + sum }) ∧
          s₁.iPercentile = s.iPercentile := by
        refine ⟨_, rfl, ?_⟩
        split_ifs <;> rfl
      have hgoal : (if s.checkNextPercentile then ((cells bucket).drop (range + 1)).foldl
            (cellStep total) (settle total (bucket.middle range) s)
          else ((cells bucket).drop range).foldl (cellStep total) s) =
          ((cells bucket).drop (range + 1)).foldl (cellStep total)
            (settle total (bucket.middle range) s₁) := by
        rw [hs₁, hcells]
        split_ifs <;> rfl
      rw [hgoal]
      simp only [← hs₁]
      cases hread : PERCENTILES[s₁.iPercentile]? with
      | none =>
        have hsettle := @settle_of_not_exceeds total s₁ (bucket.middle range) (by simp [hread])
        simp only
        rw [ih (by simp only [hindex]; omega) (by simp), hsettle]
        simp
      | some percentile =>
        obtain ⟨hinside, -⟩ := List.getElem?_eq_some_iff.mp hread
        by_cases hexceeds : exceeds total s₁.sum percentile = true
        · have hsettle := @settle_of_exceeds total s₁ percentile (bucket.middle range)
            hread hexceeds
          simp only [hexceeds, if_true]
          rw [ih (by simp only [hindex]; omega) (fun _ => hlt), hsettle]
          simp
        · have hsettle := @settle_of_not_exceeds total s₁ (bucket.middle range)
            (by simp [hread, hexceeds])
          simp only [hexceeds]
          rw [if_neg (by simp), ih (by simp only [hindex]; omega) (by simp), hsettle]
          simp

theorem foldl_checkNextPercentile (cs : List (ℚ × ℕ)) (hs : s.checkNextPercentile = false) :
    (cs.foldl (cellStep total) s).checkNextPercentile = false := by
  induction cs generalizing s with
  | nil => exact hs
  | cons cell cs ih => exact ih rfl

/-- The scan terminates, and is a fold over the ranges. -/
theorem scan_eq (buckets : List Bucket) (hs : s.checkNextPercentile = false) :
    scan total buckets s = some ((buckets.flatMap cells).foldl (cellStep total) s) := by
  induction buckets generalizing s with
  | nil => rfl
  | cons bucket buckets ih =>
    rw [scan, scanBucket_eq (by omega) (by simp [hs]), hs]
    simp only [Bool.false_eq_true, if_false, List.drop_zero, Option.bind_some, List.flatMap_cons,
      List.foldl_append]
    exact ih (foldl_checkNextPercentile _ hs)

/-! ### What is reported -/

theorem percentiles_sorted : PERCENTILES.Pairwise (· ≤ ·) := by
  unfold PERCENTILES
  norm_num

theorem exceeds_of_le {sum : ℕ} {p q : ℚ} (hle : p ≤ q) (hq : exceeds total sum q = true) :
    exceeds total sum p = true := by
  simp only [exceeds, decide_eq_true_eq] at hq ⊢
  have hmul : p * total ≤ q * total := mul_le_mul_of_nonneg_right hle (Nat.cast_nonneg total)
  linarith

/-- Of a sorted list, what is due is a first part. -/
theorem takeWhile_append_rest {ps : List ℚ} {sum : ℕ} (hsorted : ps.Pairwise (· ≤ ·)) :
    ∃ rest, ps = ps.takeWhile (exceeds total sum) ++ rest ∧
      (∀ p ∈ ps.takeWhile (exceeds total sum), exceeds total sum p = true) ∧
      ∀ p ∈ rest, exceeds total sum p = false := by
  induction ps with
  | nil => exact ⟨[], rfl, by simp, by simp⟩
  | cons p ps ih =>
    obtain ⟨hp, hps⟩ := List.pairwise_cons.mp hsorted
    by_cases hexceeds : exceeds total sum p = true
    · obtain ⟨rest, hsplit, hdue, hrest⟩ := ih hps
      rw [List.takeWhile_cons_of_pos hexceeds]
      refine ⟨rest, by rw [List.cons_append, ← hsplit], ?_, hrest⟩
      intro q hq
      rcases List.mem_cons.mp hq with rfl | hq
      · exact hexceeds
      · exact hdue q hq
    · rw [List.takeWhile_cons_of_neg hexceeds]
      refine ⟨p :: ps, rfl, by simp, ?_⟩
      intro q hq
      rcases List.mem_cons.mp hq with rfl | hq
      · simpa using hexceeds
      · by_contra hlate
        exact hexceeds (exceeds_of_le (hp q hq) (by simpa using hlate))

/-- The middle of the first range with which the sum exceeds a percentile. -/
def firstOver (total : ℕ) (p : ℚ) : (sum : ℕ) → List (ℚ × ℕ) → Option ℚ
  | _, [] => none
  | sum, cell :: cs =>
    if exceeds total (sum + cell.2) p then some cell.1 else firstOver total p (sum + cell.2) cs

/-- The scan reports every percentile with the first range that exceeds it. -/
theorem foldl_percentiles (cs : List (ℚ × ℕ))
    (hbelow : ∀ p ∈ PERCENTILES.drop s.iPercentile, exceeds total s.sum p = false) :
    (cs.foldl (cellStep total) s).percentiles = s.percentiles ++
      (PERCENTILES.drop s.iPercentile).filterMap fun p =>
        (firstOver total p s.sum cs).map fun middle => (p, middle) := by
  induction cs generalizing s with
  | nil => simp [firstOver]
  | cons cell cs ih =>
    obtain ⟨middle, weight⟩ := cell
    obtain ⟨rest, hsplit, hdue, hrest⟩ := @takeWhile_append_rest total _ (s.sum + weight)
      (percentiles_sorted.sublist (List.drop_sublist s.iPercentile _))
    generalize hnow : (PERCENTILES.drop s.iPercentile).takeWhile
      (exceeds total (s.sum + weight)) = now at hsplit hdue
    have hdrop : PERCENTILES.drop (s.iPercentile + now.length) = rest := by
      rw [← List.drop_drop, hsplit, List.drop_left]
    have hstep : cellStep total s (middle, weight) =
        { iPercentile := s.iPercentile + now.length, sum := s.sum + weight
          checkNextPercentile := false
          percentiles := s.percentiles ++ now.map fun percentile => (percentile, middle)
          reads := s.reads ++ List.range' s.iPercentile (now.length + 1) } := by
      simp only [cellStep, settle, due, hnow]
    have hfirst : now.filterMap (fun p => (firstOver total p s.sum ((middle, weight) :: cs)).map
        fun middle => (p, middle)) = now.map fun percentile => (percentile, middle) := by
      rw [← List.filterMap_eq_map]
      apply List.filterMap_congr
      intro p hp
      simp [firstOver, hdue p hp]
    have hlater : rest.filterMap (fun p => (firstOver total p s.sum ((middle, weight) :: cs)).map
        fun middle => (p, middle)) = rest.filterMap fun p =>
          (firstOver total p (s.sum + weight) cs).map fun middle => (p, middle) := by
      apply List.filterMap_congr
      intro p hp
      simp [firstOver, hrest p hp]
    rw [List.foldl_cons, hstep, ih (by simpa only [hdrop] using hrest)]
    simp only [hdrop]
    rw [hsplit, List.filterMap_append, hfirst, hlater, List.append_assoc]

/-- What has been reported belongs to the percentiles in front of the next one. -/
theorem foldl_keys (cs : List (ℚ × ℕ))
    (hkeys : s.percentiles.map Prod.fst = PERCENTILES.take s.iPercentile) :
    (cs.foldl (cellStep total) s).percentiles.map Prod.fst =
      PERCENTILES.take (cs.foldl (cellStep total) s).iPercentile := by
  induction cs generalizing s with
  | nil => exact hkeys
  | cons cell cs ih =>
    apply ih
    have hdue : PERCENTILES.take (s.iPercentile +
        (due total { s with sum := s.sum + cell.2 }).length) =
        PERCENTILES.take s.iPercentile ++ due total { s with sum := s.sum + cell.2 } := by
      rw [List.take_add]
      congr 1
      exact (List.prefix_iff_eq_take.mp (List.takeWhile_prefix _)).symm
    simp only [cellStep, settle, List.map_append, hkeys, hdue, List.map_map]
    congr 1
    exact List.map_id _

/-- The index that the scan goes on with has been read, once it has moved. -/
theorem foldl_reads (cs : List (ℚ × ℕ)) (hs : s.iPercentile = 0 ∨ s.iPercentile ∈ s.reads) :
    (cs.foldl (cellStep total) s).iPercentile = 0 ∨
      (cs.foldl (cellStep total) s).iPercentile ∈ (cs.foldl (cellStep total) s).reads := by
  induction cs generalizing s with
  | nil => exact hs
  | cons cell cs ih =>
    apply ih
    refine Or.inr (List.mem_append_right _ (List.mem_range'_1.mpr ?_))
    simp only [cellStep, settle]
    omega

/-- Ranges without weight are passed over. -/
theorem foldl_of_zero {cs : List (ℚ × ℕ)} (hcs : ∀ cell ∈ cs, cell.2 = 0) (hsum : s.sum = 0)
    (hindex : s.iPercentile = 0) (hreads : ∀ i ∈ s.reads, i = 0) :
    ∀ i ∈ (cs.foldl (cellStep 0) s).reads, i = 0 := by
  induction cs generalizing s with
  | nil => exact hreads
  | cons cell cs ih =>
    have hdue : due 0 { s with sum := s.sum + cell.2 } = [] := by
      simp [due, exceeds, hsum, hcs cell List.mem_cons_self, hindex, PERCENTILES]
    apply ih fun cell' hcell => hcs cell' (List.mem_cons_of_mem cell hcell)
    · simp [cellStep, settle, hsum, hcs cell List.mem_cons_self]
    · simp only [cellStep, settle]
      rw [hdue, hindex]
      rfl
    · intro i hi
      simp only [cellStep, settle, List.mem_append] at hi
      rw [hdue, hindex] at hi
      rcases hi with hold | hnew
      · exact hreads i hold
      · simpa using hnew

end Fold

/-! ### The table of percentiles -/

section Reads

variable {values : List ℕ} {d d' : Distribution} {v : ℕ}

/-- The scan terminates, reads the table inside its bounds only and, unless all values are zero,
reports every percentile once, with values that do not decrease. -/
def ScanSafe (values : List ℕ) (d : Distribution) : Prop :=
  ∃ statistics reads, d.getStatistics = some (statistics, reads) ∧
    (∀ i ∈ reads, i < PERCENTILES.length) ∧
    ((∃ v ∈ values, v ≠ 0) → statistics.percentiles.map Prod.fst = PERCENTILES ∧
      (statistics.percentiles.map Prod.snd).Pairwise (· ≤ ·))

/-- Nothing but zeros has been counted. -/
def Weightless (d : Distribution) : Prop :=
  d.total = 0 ∧ ∀ bucket ∈ d.histogram, ∀ sum ∈ bucket.Sum, sum = 0

theorem Weightless.add (hd : d.Weightless) (h : d.addWith Bucket.construct 0 = .ok d') :
    d'.Weightless := by
  obtain ⟨level, bucket, hbucket, -, -, -, rfl⟩ := addWith_ok h
  have hresize : ∀ b ∈ d.resizeWith Bucket.construct level, ∀ sum ∈ b.Sum, sum = 0 := by
    intro b hb sum hsum
    rcases List.mem_append.mp hb with hold | hnew
    · exact hd.2 b hold sum hsum
    · obtain ⟨j, -, rfl⟩ := List.mem_map.mp hnew
      exact List.eq_of_mem_replicate hsum
  refine ⟨by simp [hd.1, add64], ?_⟩
  intro b hb sum hsum
  rcases List.mem_or_eq_of_mem_set hb with hold | rfl
  · exact hresize b hold sum hsum
  · have hzero := hresize bucket (List.mem_of_getElem? hbucket)
    obtain ⟨k, hk, rfl⟩ := List.getElem_of_mem hsum
    rw [List.length_modify] at hk
    simp only [List.getElem_modify]
    split_ifs
    · rw [hzero _ (List.getElem_mem hk)]
      rfl
    · exact hzero _ (List.getElem_mem hk)

theorem Weightless.countAll (hd : d.Weightless) (hvalues : ∀ v ∈ values, v = 0)
    (h : Distribution.countAll Bucket.construct values d = .ok d') : d'.Weightless := by
  induction values generalizing d with
  | nil =>
    cases h
    exact hd
  | cons v values ih =>
    obtain rfl := hvalues v List.mem_cons_self
    cases hadd : d.addWith Bucket.construct 0 with
    | error failure =>
      rw [Distribution.countAll, hadd] at h
      cases h
    | ok next =>
      rw [Distribution.countAll, hadd] at h
      exact ih (hd.add hadd) (fun w hw => hvalues w (List.mem_cons_of_mem 0 hw)) h

theorem getStatistics_eq (hcount : d.count ≠ 0) : ∃ statistics, d.getStatistics = some
    (statistics, ((d.histogram.flatMap cells).foldl (cellStep d.total) .start).reads) ∧
    statistics.percentiles =
      ((d.histogram.flatMap cells).foldl (cellStep d.total) .start).percentiles := by
  rw [getStatistics, if_neg hcount, scan_eq d.histogram rfl]
  exact ⟨_, rfl, rfl⟩

/-- When every percentile has been reported, the table is read once more. -/
theorem read_behind_of_complete {total : ℕ} {cs : List (ℚ × ℕ)}
    (hcomplete : (cs.foldl (cellStep total) .start).percentiles.map Prod.fst = PERCENTILES) :
    ∃ i ∈ (cs.foldl (cellStep total) .start).reads, PERCENTILES.length ≤ i := by
  have hkeys := @foldl_keys total .start cs rfl
  have hreads := @foldl_reads total .start cs (Or.inl rfl)
  rw [hcomplete] at hkeys
  have hle : PERCENTILES.length ≤ (cs.foldl (cellStep total) .start).iPercentile := by
    have hlength := congrArg List.length hkeys
    rw [List.length_take] at hlength
    omega
  rcases hreads with hzero | hmem
  · rw [hzero] at hle
    exact absurd hle (by decide)
  · exact ⟨_, hmem, hle⟩

theorem zero_of_scanSafe (h : ScanSafe values d) : ∀ v ∈ values, v = 0 := by
  obtain ⟨statistics, reads, hstatistics, hinside, hreported⟩ := h
  by_contra hnonzero
  push Not at hnonzero
  obtain ⟨hkeys, -⟩ := hreported hnonzero
  by_cases hcount : d.count = 0
  · rw [getStatistics, if_pos hcount, Option.some.injEq, Prod.mk.injEq] at hstatistics
    rw [← hstatistics.1] at hkeys
    cases hkeys
  · obtain ⟨statistics', hstatistics', hpercentiles⟩ := getStatistics_eq hcount
    rw [hstatistics', Option.some.injEq, Prod.mk.injEq] at hstatistics
    obtain ⟨rfl, rfl⟩ := hstatistics
    rw [hpercentiles] at hkeys
    obtain ⟨i, hi, hbehind⟩ := read_behind_of_complete hkeys
    exact absurd (hinside i hi) (Nat.not_lt.mpr hbehind)

/-- The scan stays inside the table exactly where nothing but zeros has been counted, and there it
has nothing to report. -/
theorem scanSafe_iff (unit : String) (ranges base : ℕ) (values : List ℕ) (d : Distribution)
    (hd : Distribution.countAll Bucket.construct values (.new unit ranges base) = .ok d) :
    ScanSafe values d ↔ ∀ v ∈ values, v = 0 := by
  constructor
  · exact zero_of_scanSafe
  · intro hzero
    have hnone : ¬ ∃ v ∈ values, v ≠ 0 := by simpa using hzero
    by_cases hcount : d.count = 0
    · refine ⟨_, _, by rw [getStatistics, if_pos hcount], ?_, fun h => absurd h hnone⟩
      simp
    · obtain ⟨statistics, hstatistics, -⟩ := getStatistics_eq hcount
      refine ⟨_, _, hstatistics, ?_, fun h => absurd h hnone⟩
      have hweightless : d.Weightless := Weightless.countAll ⟨rfl, by simp [new]⟩ hzero hd
      have hcells : ∀ cell ∈ d.histogram.flatMap cells, cell.2 = 0 := by
        intro cell hcell
        obtain ⟨bucket, hbucket, hcell⟩ := List.mem_flatMap.mp hcell
        obtain ⟨⟨sum, range⟩, hsum, rfl⟩ := List.mem_map.mp hcell
        exact hweightless.2 bucket hbucket sum (List.fst_mem_of_mem_zipIdx hsum)
      rw [hweightless.1]
      intro i hi
      rw [foldl_of_zero hcells rfl rfl (by simp [Scan.start]) i hi]
      decide

theorem scanSafe_iff_small : ∃ d,
    Distribution.countAll Bucket.construct [0] (.new "ns" 1 2) = .ok d ∧
      (ScanSafe [0] d ↔ ∀ v ∈ [0], v = 0) := by
  have hends : ∀ v ∈ [0], EndsBelow (Distribution.new "ns" 1 2).ranges 2 v := by
    intro v hv
    obtain rfl := List.mem_singleton.mp hv
    exact ⟨0, by decide, by decide⟩
  obtain ⟨d, hd, -⟩ := (counted_new "ns" 1 2).countAll_ok Nat.one_pos le_rfl hends
  exact ⟨d, hd, scanSafe_iff "ns" 1 2 [0] d hd⟩

/-- One value: behind the last percentile the table is read at its length. -/
theorem scan_reads_behind :
    ∃ d, Distribution.countAll Bucket.construct [1] (.new "ns" 1 2) = .ok d ∧
      d.getStatistics.map Prod.snd = some [0, 0, 1, 2, 3, 4] ∧ PERCENTILES.length = 4 ∧
      ¬ ScanSafe [1] d := by
  refine ⟨⟨"ns", 1, 2, 1, 1, 1, 1, [⟨0, 1, 0, 0, 1, [0], [0]⟩, ⟨1, 1, 1, 1, 1, [1], [1]⟩]⟩,
    by decide +kernel, by decide +kernel, rfl, ?_⟩
  intro hsafe
  exact absurd (zero_of_scanSafe hsafe 1 List.mem_cons_self) Nat.one_ne_zero

end Reads

/-! ### Where the percentiles stand -/

section Positional

variable {values : List ℕ} {ranges base levels : ℕ} {d d' : Distribution} {r r' : HistogramRange}
  {p : ℚ}

/-- Half way from the beginning of a range to that of the next; a range of one value is that
value. -/
def middle (r : HistogramRange) : ℚ :=
  if r.begin = r.end' then r.begin else r.begin + ((r.end' + 1 - r.begin : ℕ) : ℚ) / 2

/-- The values up to a range make more than so many percent of all by their number. -/
def ByCount (values : List ℕ) (p : ℚ) (r : HistogramRange) : Prop :=
  p * values.length / 100 < values.countP fun v => v ≤ r.end'

/-- What the values of a range add up to, in 64 bits. -/
def weight (values : List ℕ) (r : HistogramRange) : ℕ :=
  (values.filter fun v => r.Holds v).sum % 2 ^ 64

/-- The values up to a range make more than so many percent of all by what they add up to. -/
def ByValue (values : List ℕ) (histogram : List HistogramRange) (p : ℚ) (r : HistogramRange) :
    Prop :=
  p * (values.sum % 2 ^ 64 : ℕ) / 100 <
    ((histogram.filter fun r' => r'.end' ≤ r.end').map (weight values)).sum

/-- The value is the middle of the first range with a property. -/
def IsFirst (histogram : List HistogramRange) (P : HistogramRange → Prop) (value : ℚ) : Prop :=
  ∃ r ∈ histogram, P r ∧ (∀ r' ∈ histogram, r'.end' < r.begin → ¬ P r') ∧ value = middle r

instance (values : List ℕ) (p : ℚ) : DecidablePred (ByCount values p) :=
  fun _ => inferInstanceAs (Decidable (_ < _))

instance (histogram : List HistogramRange) (P : HistogramRange → Prop) [DecidablePred P]
    (value : ℚ) : Decidable (IsFirst histogram P value) :=
  inferInstanceAs (Decidable (∃ r ∈ histogram, _))

/-- Every reported percentile is where the counted occurrences exceed it first. -/
def Positional (values : List ℕ) (d : Distribution) : Prop :=
  ∀ statistics reads, d.getStatistics = some (statistics, reads) →
    ∀ p value, (p, value) ∈ statistics.percentiles →
      IsFirst d.getHistogram (ByCount values p) value

/-- Wherever the values up to a range exceed a percentile by what they add up to, they exceed it
by their number. -/
def Balanced (values : List ℕ) (d : Distribution) : Prop :=
  ∀ p ∈ PERCENTILES, (∃ r ∈ d.getHistogram, ByValue values d.getHistogram p r) →
    ∀ r ∈ d.getHistogram, ByValue values d.getHistogram p r ↔ ByCount values p r

theorem ByCount.mono (h : ByCount values p r) (hle : r.end' ≤ r'.end') : ByCount values p r' := by
  have hcount : values.countP (fun v => v ≤ r.end') ≤ values.countP fun v => v ≤ r'.end' := by
    apply List.countP_mono_left
    intro v _ hv
    exact decide_eq_true ((of_decide_eq_true hv).trans hle)
  exact lt_of_lt_of_le h (Nat.cast_le.mpr hcount)

theorem ByValue.mono {histogram : List HistogramRange} (h : ByValue values histogram p r)
    (hle : r.end' ≤ r'.end') : ByValue values histogram p r' := by
  have hsub : (histogram.filter fun q => q.end' ≤ r.end').Sublist
      (histogram.filter fun q => q.end' ≤ r'.end') := by
    apply List.monotone_filter_right
    intro q hq
    exact decide_eq_true ((of_decide_eq_true hq).trans hle)
  have hsum := List.Sublist.sum_le_sum (hsub.map (weight values)) fun _ _ => Nat.zero_le _
  exact lt_of_lt_of_le h (Nat.cast_le.mpr hsum)

section Ordered

variable {histogram : List HistogramRange} {start : ℕ}

/-- One range is behind the other or they are the same. -/
theorem range_cases (hconsecutive : Consecutive HistogramRange.begin HistogramRange.end' start
      histogram) (hr : r ∈ histogram) (hr' : r' ∈ histogram) :
    r = r' ∨ r.end' < r'.begin ∨ r'.end' < r.begin := by
  obtain ⟨i, hi, rfl⟩ := List.getElem_of_mem hr
  obtain ⟨j, hj, rfl⟩ := List.getElem_of_mem hr'
  have hordered := List.pairwise_iff_getElem.mp hconsecutive.pairwise
  rcases lt_trichotomy i j with hlt | rfl | hgt
  · exact Or.inr (Or.inl (hordered i j hi hj hlt))
  · exact Or.inl rfl
  · exact Or.inr (Or.inr (hordered j i hj hi hgt))

theorem middle_bounds (hle : r.begin ≤ r.end') :
    (r.begin : ℚ) ≤ middle r ∧ middle r < r.end' + 1 := by
  unfold middle
  split_ifs with heq
  · rw [heq]
    exact ⟨le_rfl, by linarith⟩
  · have hwidth : ((r.end' + 1 - r.begin : ℕ) : ℚ) = r.end' + 1 - r.begin := by
      rw [Nat.cast_sub (by omega)]
      push_cast
      rfl
    have hcast : (r.begin : ℚ) ≤ r.end' := Nat.cast_le.mpr hle
    rw [hwidth]
    constructor <;> linarith

/-- No two ranges have the same middle. -/
theorem eq_of_middle (hconsecutive : Consecutive HistogramRange.begin HistogramRange.end' start
      histogram) (hr : r ∈ histogram) (hr' : r' ∈ histogram) (hmiddle : middle r = middle r') :
    r = r' := by
  obtain ⟨hlow, hhigh⟩ := middle_bounds (hconsecutive.first_le_last hr).2
  obtain ⟨hlow', hhigh'⟩ := middle_bounds (hconsecutive.first_le_last hr').2
  rcases range_cases hconsecutive hr hr' with heq | hlt | hgt
  · exact heq
  · have hcast : ((r.end' + 1 : ℕ) : ℚ) ≤ r'.begin := Nat.cast_le.mpr hlt
    push_cast at hcast
    linarith
  · have hcast : ((r'.end' + 1 : ℕ) : ℚ) ≤ r.begin := Nat.cast_le.mpr hgt
    push_cast at hcast
    linarith

/-- The ranges up to one of them. -/
theorem filter_upTo {pre post : List HistogramRange} (hconsecutive : Consecutive
      HistogramRange.begin HistogramRange.end' start (pre ++ r :: post)) :
    (pre ++ r :: post).filter (fun q => q.end' ≤ r.end') = pre ++ [r] := by
  obtain ⟨-, hrest, hcross⟩ := List.pairwise_append.mp hconsecutive.pairwise
  have hends : ∀ q ∈ pre ++ r :: post, q.begin ≤ q.end' :=
    fun q hq => (hconsecutive.first_le_last hq).2
  have hpre : pre.filter (fun q => q.end' ≤ r.end') = pre := by
    rw [List.filter_eq_self]
    intro q hq
    have hlt := hcross q hq r List.mem_cons_self
    have hle := hends r (by simp)
    exact decide_eq_true (by omega)
  have hpost : post.filter (fun q => q.end' ≤ r.end') = [] := by
    rw [List.filter_eq_nil_iff]
    intro q hq
    have hlt := (List.pairwise_cons.mp hrest).1 q hq
    have hle := hends q (by simp [hq])
    simp only [decide_eq_true_eq]
    omega
  rw [List.filter_append, hpre, List.filter_cons_of_pos (by simp), hpost]

end Ordered

/-! ### The scan finds the first range by value -/

theorem exceeds_mono {total sum sum' : ℕ} (hle : sum ≤ sum') (h : exceeds total sum p = true) :
    exceeds total sum' p = true := by
  simp only [exceeds, decide_eq_true_eq] at h ⊢
  exact lt_of_lt_of_le h (Nat.cast_le.mpr hle)

theorem firstOver_some {total sum : ℕ} {m : HistogramRange → ℚ} {w : HistogramRange → ℕ}
    {rs : List HistogramRange} {x : ℚ} (hsum : exceeds total sum p = false)
    (h : firstOver total p sum (rs.map fun r => (m r, w r)) = some x) :
    ∃ pre r post, rs = pre ++ r :: post ∧ exceeds total (sum + (pre.map w).sum) p = false ∧
      exceeds total (sum + ((pre ++ [r]).map w).sum) p = true ∧ x = m r := by
  induction rs generalizing sum with
  | nil => cases h
  | cons r rs ih =>
    rw [List.map_cons, firstOver] at h
    by_cases hexceeds : exceeds total (sum + w r) p = true
    · simp only [hexceeds, if_true, Option.some.injEq] at h
      exact ⟨[], r, rs, rfl, by simpa using hsum, by simpa using hexceeds, h.symm⟩
    · simp only [hexceeds] at h
      obtain ⟨pre, r', post, rfl, hbefore, hbehind, hx⟩ := ih (by simpa using hexceeds) h
      refine ⟨r :: pre, r', post, rfl, ?_, ?_, hx⟩
      · simpa [Nat.add_assoc] using hbefore
      · simpa [Nat.add_assoc] using hbehind

theorem firstOver_none {total sum : ℕ} {m : HistogramRange → ℚ} {w : HistogramRange → ℕ}
    {rs : List HistogramRange} (hsum : exceeds total sum p = false)
    (h : firstOver total p sum (rs.map fun r => (m r, w r)) = none) :
    exceeds total (sum + (rs.map w).sum) p = false := by
  induction rs generalizing sum with
  | nil => simpa using hsum
  | cons r rs ih =>
    rw [List.map_cons, firstOver] at h
    by_cases hexceeds : exceeds total (sum + w r) p = true
    · simp [hexceeds] at h
    · simp only [hexceeds] at h
      simpa [Nat.add_assoc] using ih (by simpa using hexceeds) h

theorem byValue_iff (histogram : List HistogramRange) :
    ByValue values histogram p r ↔ exceeds (values.sum % 2 ^ 64)
      ((histogram.filter fun r' => r'.end' ≤ r.end').map (weight values)).sum p = true := by
  rw [exceeds, decide_eq_true_eq]
  rfl

/-- What the scan finds is the first range by value. -/
theorem isFirst_of_firstOver {histogram : List HistogramRange} {start : ℕ} {value : ℚ}
    (hconsecutive : Consecutive HistogramRange.begin HistogramRange.end' start histogram)
    (hzero : exceeds (values.sum % 2 ^ 64) 0 p = false)
    (h : firstOver (values.sum % 2 ^ 64) p 0
      (histogram.map fun r => (middle r, weight values r)) = some value) :
    IsFirst histogram (ByValue values histogram p) value := by
  obtain ⟨pre, r, post, rfl, hbefore, hbehind, hvalue⟩ := firstOver_some hzero h
  refine ⟨r, by simp, ?_, ?_, hvalue⟩
  · rw [byValue_iff, filter_upTo hconsecutive]
    simpa using hbehind
  · intro r' hr' hlt hby
    have hpre : ((pre ++ r :: post).filter fun q => q.end' ≤ r'.end').Sublist pre := by
      have hle := (hconsecutive.first_le_last (a := r) (by simp)).2
      have hsub : ((pre ++ r :: post).filter fun q => q.end' ≤ r'.end') =
          ((pre ++ r :: post).filter fun q => q.end' ≤ r.end').filter
            fun q => q.end' ≤ r'.end' := by
        rw [List.filter_filter]
        apply List.filter_congr
        intro q _
        by_cases hq : q.end' ≤ r'.end'
        · have hq' : q.end' ≤ r.end' := by omega
          simp [hq, hq']
        · simp [hq]
      rw [hsub, filter_upTo hconsecutive, List.filter_append,
        List.filter_cons_of_neg (by simp only [decide_eq_true_eq]; omega), List.filter_nil,
        List.append_nil]
      exact List.filter_sublist
    have hsum := List.Sublist.sum_le_sum (hpre.map (weight values)) fun _ _ => Nat.zero_le _
    rw [Nat.zero_add] at hbefore
    rw [exceeds_mono hsum ((byValue_iff _).mp hby)] at hbefore
    cases hbefore

theorem cells_tally (hranges : 0 < ranges) (hbase : 2 ≤ base) (level : ℕ) :
    cells (tally values ranges base level) = ((List.range ranges).map
      (histogramRange values ranges base level)).map fun r => (middle r, weight values r) := by
  have hsize : (tally values ranges base level).RangeSize = width base level :=
    new_rangeSize hranges hbase level
  have hborder : (tally values ranges base level).Begin = border ranges base level :=
    new_begin level
  have hpos := width_pos hbase level
  have hmiddle : ∀ range, (tally values ranges base level).middle range =
      middle (histogramRange values ranges base level range) := by
    intro range
    rw [Bucket.middle, hsize, hborder]
    by_cases hone : 1 < width base level
    · have hne : ¬ (histogramRange values ranges base level range).begin =
          (histogramRange values ranges base level range).end' := by
        simp only [histogramRange]
        omega
      have hwidth : (histogramRange values ranges base level range).end' + 1 -
          (histogramRange values ranges base level range).begin = width base level := by
        simp only [histogramRange]
        omega
      rw [middle, if_pos hone, if_neg hne, hwidth]
      simp only [histogramRange]
      push_cast
      ring
    · have heq : (histogramRange values ranges base level range).begin =
          (histogramRange values ranges base level range).end' := by
        simp only [histogramRange]
        omega
      rw [middle, if_neg hone, if_pos heq]
      simp only [histogramRange]
      push_cast
      ring
  apply List.ext_getElem
  · simp [cells, tally]
  · intro j hj _
    simp only [cells, List.getElem_map, List.getElem_zipIdx, List.getElem_range, Nat.zero_add,
      hmiddle]
    simp only [tally, List.getElem_map, List.getElem_range]
    rfl

theorem cells_of_counted (hs : Counted values levels d) (hranges : 0 < d.ranges)
    (hbase : 2 ≤ d.base) : d.histogram.flatMap cells =
      (rangesOf values d.ranges d.base levels).map fun r => (middle r, weight values r) := by
  rw [hs.histogram, List.flatMap_map, rangesOf, List.map_flatMap]
  congr 1
  funext level
  exact cells_tally hranges hbase level

theorem not_exceeds_zero {total : ℕ} (hp : p ∈ PERCENTILES) : exceeds total 0 p = false := by
  have hnonneg : 0 ≤ p := by
    simp only [PERCENTILES, List.mem_cons, List.not_mem_nil, or_false] at hp
    rcases hp with rfl | rfl | rfl | rfl <;> norm_num
  have hproduct : 0 ≤ p * total / 100 :=
    div_nonneg (mul_nonneg hnonneg (Nat.cast_nonneg total)) (by norm_num)
  simpa [exceeds] using hproduct

/-- What the statistics of counted values hold. -/
theorem mem_percentiles (hs : Counted values levels d) (hranges : 0 < d.ranges)
    (hbase : 2 ≤ d.base) (hvalues : values ≠ []) : ∃ statistics reads,
    d.getStatistics = some (statistics, reads) ∧
      ∀ p value, (p, value) ∈ statistics.percentiles ↔ p ∈ PERCENTILES ∧
        firstOver (values.sum % 2 ^ 64) p 0
          (d.getHistogram.map fun r => (middle r, weight values r)) = some value := by
  have hcount : d.count ≠ 0 := by
    rw [hs.count]
    simpa using hvalues
  obtain ⟨statistics, hstatistics, hpercentiles⟩ := getStatistics_eq hcount
  refine ⟨statistics, _, hstatistics, ?_⟩
  intro p value
  rw [hpercentiles, foldl_percentiles _ fun q hq => not_exceeds_zero hq,
    cells_of_counted hs hranges hbase, hs.getHistogram hranges hbase hvalues, hs.total]
  simp [Scan.start, and_left_comm]

/-- The percentiles are positional exactly where the sums of the values exceed them with the same
ranges as their number. -/
theorem positional_iff (unit : String) (ranges : ℕ) {base : ℕ} (hbase : 2 ≤ base)
    (values : List ℕ) (d : Distribution)
    (hd : Distribution.countAll Bucket.new values (.new unit ranges base) = .ok d) :
    Positional values d ↔ Balanced values d := by
  have hnew := counted_new unit ranges base
  obtain ⟨levels, hs, hranges', hbase'⟩ := hnew.countAll hbase hd
  have hbase'' : 2 ≤ d.base := hbase'.symm ▸ hbase
  by_cases hvalues : values = []
  · subst hvalues
    cases hd
    constructor
    · rintro - p - ⟨r, hr, -⟩
      cases hr
    · intro _ statistics reads hstatistics p value hmem
      cases hstatistics
      cases hmem
  · have hranges : 0 < d.ranges := by
      obtain ⟨v, more, rfl⟩ := List.exists_cons_of_ne_nil hvalues
      rw [hranges']
      cases hadd : (Distribution.new unit ranges base).addWith Bucket.new v with
      | error failure =>
        rw [Distribution.countAll, hadd] at hd
        cases hd
      | ok next => exact hnew.ranges_pos hadd
    obtain ⟨statistics, reads, hstatistics, hmem⟩ := mem_percentiles hs hranges hbase'' hvalues
    have hconsecutive : Consecutive HistogramRange.begin HistogramRange.end' 0 d.getHistogram :=
      (hs.partitions hranges hbase'').consecutive
    have hfirst : ∀ p ∈ PERCENTILES, ∀ value, firstOver (values.sum % 2 ^ 64) p 0
        (d.getHistogram.map fun r => (middle r, weight values r)) = some value →
        IsFirst d.getHistogram (ByValue values d.getHistogram p) value :=
      fun p hp value => isFirst_of_firstOver hconsecutive (not_exceeds_zero hp)
    constructor
    · rintro hpositional p hp ⟨r₀, -, hby₀⟩ r hr
      cases hover : firstOver (values.sum % 2 ^ 64) p 0
          (d.getHistogram.map fun r => (middle r, weight values r)) with
      | none =>
        have hall := firstOver_none (not_exceeds_zero hp) hover
        have hsum := List.Sublist.sum_le_sum ((List.filter_sublist (l := d.getHistogram)
          (p := fun r' => r'.end' ≤ r₀.end')).map (weight values)) fun _ _ => Nat.zero_le _
        rw [Nat.zero_add, exceeds_mono hsum ((byValue_iff _).mp hby₀)] at hall
        cases hall
      | some value =>
        obtain ⟨r₁, hr₁, hby, hbefore, hvalue⟩ := hfirst p hp value hover
        obtain ⟨r₂, hr₂, hcount, hbefore', hvalue'⟩ :=
          hpositional statistics reads hstatistics p value ((hmem p value).mpr ⟨hp, hover⟩)
        obtain rfl := eq_of_middle hconsecutive hr₁ hr₂ (hvalue.symm.trans hvalue')
        by_cases hlt : r.end' < r₁.begin
        · exact iff_of_false (hbefore r hr hlt) (hbefore' r hr hlt)
        · have hle : r₁.end' ≤ r.end' := by
            have hends := (hconsecutive.first_le_last hr).2
            rcases range_cases hconsecutive hr hr₁ with rfl | hout | hbehind
            · exact le_rfl
            · exact absurd hout hlt
            · omega
          exact iff_of_true (hby.mono hle) (hcount.mono hle)
    · intro hbalanced statistics' reads' hstatistics' p value hreported
      rw [hstatistics, Option.some.injEq, Prod.mk.injEq] at hstatistics'
      obtain ⟨rfl, rfl⟩ := hstatistics'
      obtain ⟨hp, hover⟩ := (hmem p value).mp hreported
      obtain ⟨r, hr, hby, hbefore, hvalue⟩ := hfirst p hp value hover
      have hagree := hbalanced p hp ⟨r, hr, hby⟩
      refine ⟨r, hr, (hagree r hr).mp hby, ?_, hvalue⟩
      intro r' hr' hlt hcount
      exact hbefore r' hr' hlt ((hagree r' hr').mpr hcount)

theorem positional_iff_small : ∃ d,
    Distribution.countAll Bucket.new [1, 1] (.new "ns" 1 2) = .ok d ∧
      (Positional [1, 1] d ↔ Balanced [1, 1] d) := by
  have hends : ∀ v ∈ [1, 1], EndsBelow (Distribution.new "ns" 1 2).ranges 2 v := by
    intro v hv
    obtain ⟨rfl⟩ : v = 1 := by simpa using hv
    exact ⟨1, by decide, by decide⟩
  obtain ⟨d, -, hd⟩ := (counted_new "ns" 1 2).countAll_ok Nat.one_pos le_rfl hends
  exact ⟨d, hd, positional_iff "ns" 1 le_rfl [1, 1] d hd⟩

/-- Ten times the value one and once a thousand: the 90th percentile is that of the thousand. -/
theorem percentile_not_positional : ∃ d,
    Distribution.countAll Bucket.new (List.replicate 10 1 ++ [1000]) (.new "ns" 1 2) = .ok d ∧
      ¬ Positional (List.replicate 10 1 ++ [1000]) d := by
  let values := List.replicate 10 1 ++ [1000]
  let d : Distribution :=
    ⟨"ns", 1, 2, 1010, 11, 1, 1000, (List.range 11).map (tally values 1 2)⟩
  refine ⟨d, by decide +kernel, ?_⟩
  intro hpositional
  obtain ⟨statistics, hstatistics, hpercentiles⟩ := getStatistics_eq (d := d) (by decide)
  have hreported : (90, 768) ∈ statistics.percentiles := by
    rw [hpercentiles]
    decide +kernel
  have hfirst := hpositional statistics _ hstatistics 90 768 hreported
  have hwrong : ¬ IsFirst d.getHistogram (ByCount values 90) 768 := by decide +kernel
  exact hwrong hfirst

end Positional

end Distribution

end Octf.Analytics
