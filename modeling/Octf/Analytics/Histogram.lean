import Mathlib.Algebra.Order.BigOperators.Group.List
import Octf.Analytics.IoStatisticsSet
import Octf.Foundation.Consecutive
import Octf.Foundation.Double

/-! The histogram of a distribution: its ranges partition the numbers up to the last bucket, and
each counts the values in it, while the ends of the buckets are exact in doubles. -/
namespace Octf.Analytics
open Foundation

namespace HistogramRange

def Holds (r : HistogramRange) (v : ℕ) : Prop := Within begin end' r v

instance (r : HistogramRange) (v : ℕ) : Decidable (r.Holds v) :=
  inferInstanceAs (Decidable (Within _ _ _ _))

end HistogramRange

namespace Bucket

/-- `Bucket::Bucket` as the code computes it, with powers and products in doubles. -/
def construct (level ranges base : ℕ) : Bucket :=
  let pow := fun exponent => double (double base ^ exponent)
  let Begin := if level ≠ 0 then double (pow (level - 1) * double ranges) else 0
  let End := double (double (pow level * double ranges) - 1)
  ⟨level, ranges, Begin, End, (End - Begin + 1) / ranges, List.replicate ranges 0,
    List.replicate ranges 0⟩

/-- The inner loop of `getHistogram`. -/
def report (bucket : Bucket) : List HistogramRange :=
  bucket.Count.zipIdx.map fun (count, range) =>
    ⟨bucket.Begin + range * bucket.RangeSize,
      bucket.Begin + bucket.RangeSize - 1 + range * bucket.RangeSize, count⟩

end Bucket

namespace Distribution

/-- The histogram with the missed buckets up to a level. -/
def resizeWith (make : ℕ → ℕ → ℕ → Bucket) (level : ℕ) (d : Distribution) : List Bucket :=
  d.histogram ++ (List.range' d.histogram.length (level + 1 - d.histogram.length)).map
    fun j => make j d.ranges d.base

/-- Count a value in the bucket of a level, which the histogram has. -/
def insertInto (value level : ℕ) (histogram : List Bucket) (d : Distribution) :
    Except Failure Distribution :=
  match histogram[level]? with
  | none => .error .running
  | some bucket =>
    match bucket.add value with
    | .error failure => .error failure
    | .ok bucket => .ok { d with
      total := add64 d.total value
      count := d.count + 1
      min := Nat.min d.min value
      max := Nat.max d.max value
      histogram := histogram.set level bucket }

/-- `operator+=` with a constructor of buckets. -/
def addWith (make : ℕ → ℕ → ℕ → Bucket) (value : ℕ) (d : Distribution) :
    Except Failure Distribution :=
  (getLevel d.ranges d.base value 65 0 1).elim (.error .running) fun level =>
    d.insertInto value level (d.resizeWith make level)

/-- Count one value after the other. -/
def countAll (make : ℕ → ℕ → ℕ → Bucket) : List ℕ → Distribution → Except Failure Distribution
  | [], d => .ok d
  | value :: values, d => (d.addWith make value).bind (countAll make values)

def getHistogram (d : Distribution) : List HistogramRange :=
  if d.count = 0 then [] else d.histogram.flatMap Bucket.report

end Distribution

/-! ### The buckets in exact arithmetic -/

section Geometry

variable {ranges base : ℕ}

/-- Where the bucket of a level begins. -/
def border (ranges base : ℕ) : ℕ → ℕ
  | 0 => 0
  | level + 1 => base ^ level * ranges

/-- How wide its ranges are. -/
def width (base : ℕ) : ℕ → ℕ
  | 0 => 1
  | level + 1 => base ^ level * (base - 1)

theorem width_pos (hbase : 2 ≤ base) (level : ℕ) : 0 < width base level := by
  cases level with
  | zero => exact Nat.one_pos
  | succ level => exact Nat.mul_pos (Nat.pow_pos (by omega)) (by omega)

theorem border_add (hbase : 2 ≤ base) (level : ℕ) :
    border ranges base level + ranges * width base level = border ranges base (level + 1) := by
  cases level with
  | zero => simp [border, width]
  | succ level =>
    obtain ⟨b, rfl⟩ := Nat.exists_eq_add_of_le' hbase
    simp only [border, width, Nat.pow_succ]
    have hsub : b + 2 - 1 = b + 1 := by omega
    rw [hsub]
    ring

theorem border_lt (hranges : 0 < ranges) (hbase : 2 ≤ base) (level : ℕ) :
    border ranges base level < border ranges base (level + 1) := by
  rw [← border_add hbase]
  exact Nat.lt_add_of_pos_right (Nat.mul_pos hranges (width_pos hbase level))

theorem border_strictMono (hranges : 0 < ranges) (hbase : 2 ≤ base) :
    StrictMono (border ranges base) := strictMono_nat_of_lt_succ (border_lt hranges hbase)

theorem new_begin (level : ℕ) :
    (Bucket.new level ranges base).Begin = border ranges base level := by
  cases level with
  | zero => rfl
  | succ level => rfl

theorem new_end (level : ℕ) :
    (Bucket.new level ranges base).End = border ranges base (level + 1) - 1 := rfl

theorem new_rangeSize (hranges : 0 < ranges) (hbase : 2 ≤ base) (level : ℕ) :
    (Bucket.new level ranges base).RangeSize = width base level := by
  have hlt := border_lt hranges hbase level
  have hsize : border ranges base (level + 1) - 1 - border ranges base level + 1 =
      ranges * width base level := by
    have := @border_add ranges base hbase level
    omega
  have hdef : (Bucket.new level ranges base).RangeSize =
      ((Bucket.new level ranges base).End - (Bucket.new level ranges base).Begin + 1) / ranges :=
        rfl
  rw [hdef, new_begin, new_end, hsize, Nat.mul_div_cancel_left _ hranges]

end Geometry

/-! ### What has been counted -/

section Counted

/-- The range of a level holds a value. -/
def InRange (ranges base level range v : ℕ) : Prop :=
  border ranges base level + range * width base level ≤ v ∧
    v ≤ border ranges base level + width base level - 1 + range * width base level

instance (ranges base level range v : ℕ) : Decidable (InRange ranges base level range v) :=
  inferInstanceAs (Decidable (_ ∧ _))

/-- The bucket of a level when these values have been counted. -/
def tally (values : List ℕ) (ranges base level : ℕ) : Bucket :=
  { Bucket.new level ranges base with
    Sum := (List.range ranges).map fun range =>
      (values.filter fun v => InRange ranges base level range v).sum % 2 ^ 64
    Count := (List.range ranges).map fun range =>
      values.countP fun v => InRange ranges base level range v }

/-- The histogram has as many levels as the values need, and the tallies of the values. -/
structure Counted (values : List ℕ) (levels : ℕ) (d : Distribution) : Prop where
  histogram : d.histogram = (List.range levels).map (tally values d.ranges d.base)
  reached : ∀ v ∈ values, v < border d.ranges d.base levels
  total : d.total = values.sum % 2 ^ 64
  count : d.count = values.length

variable {values : List ℕ} {ranges base level range v : ℕ} {d d' : Distribution}

theorem counted_new (unit : String) (ranges base : ℕ) :
    Counted [] 0 (Distribution.new unit ranges base) where
  histogram := rfl
  reached := by simp
  total := rfl
  count := rfl

/-- A range lies in its bucket. -/
theorem InRange.bounds (h : InRange ranges base level range v) (hrange : range < ranges)
    (hbase : 2 ≤ base) :
    border ranges base level ≤ v ∧ v < border ranges base (level + 1) := by
  have hadd := @border_add ranges base hbase level
  have hpos := width_pos hbase level
  have hlast : (range + 1) * width base level ≤ ranges * width base level :=
    Nat.mul_le_mul_right _ hrange
  rw [Nat.add_mul, Nat.one_mul] at hlast
  unfold InRange at h
  omega

/-- The range that holds a value of the bucket is found by division. -/
theorem inRange_iff (hbase : 2 ≤ base) (hbegin : border ranges base level ≤ v) :
    InRange ranges base level range v ↔
      (v - border ranges base level) / width base level = range := by
  have hpos := width_pos hbase level
  rw [Nat.div_eq_iff hpos]
  unfold InRange
  constructor <;> intro h <;> omega

/-- The levels have no value in common. -/
theorem level_unique {level' : ℕ} (hranges : 0 < ranges) (hbase : 2 ≤ base)
    (h : border ranges base level ≤ v ∧ v < border ranges base (level + 1))
    (h' : border ranges base level' ≤ v ∧ v < border ranges base (level' + 1)) :
    level = level' := by
  have hmono := (@border_strictMono ranges base hranges hbase).monotone
  rcases lt_trichotomy level level' with hlt | heq | hgt
  · have hle : border ranges base (level + 1) ≤ border ranges base level' := hmono hlt
    omega
  · exact heq
  · have hle : border ranges base (level' + 1) ≤ border ranges base level := hmono hgt
    omega

/-- What counting a value needs, and what it does. -/
theorem addWith_ok {make : ℕ → ℕ → ℕ → Bucket} (h : d.addWith make v = .ok d') :
    ∃ level bucket, (d.resizeWith make level)[level]? = some bucket ∧
      bucket.Begin ≤ v ∧ v ≤ bucket.End ∧
      (v - bucket.Begin) / bucket.RangeSize < bucket.RangesCount ∧
      d' = { d with
        total := add64 d.total v
        count := d.count + 1
        min := Nat.min d.min v
        max := Nat.max d.max v
        histogram := (d.resizeWith make level).set level { bucket with
          Sum := bucket.Sum.modify ((v - bucket.Begin) / bucket.RangeSize)
            fun sum => add64 sum v
          Count := bucket.Count.modify ((v - bucket.Begin) / bucket.RangeSize)
            fun count => count + 1 } } := by
  rw [Distribution.addWith] at h
  cases hlevel : Distribution.getLevel d.ranges d.base v 65 0 1 with
  | none =>
    rw [hlevel, Option.elim_none] at h
    cases h
  | some level =>
    rw [hlevel, Option.elim_some, Distribution.insertInto] at h
    cases hbucket : (d.resizeWith make level)[level]? with
    | none =>
      rw [hbucket] at h
      cases h
    | some bucket =>
      rw [hbucket] at h
      simp only [Bucket.add] at h
      by_cases hbounds : v < bucket.Begin ∨ bucket.End < v
      · simp only [hbounds, if_true] at h
        cases h
      · by_cases hrange : (v - bucket.Begin) / bucket.RangeSize < bucket.RangesCount
        · simp only [hbounds, if_false, hrange, if_true, Except.ok.injEq] at h
          exact ⟨level, bucket, hbucket, by omega, by omega, hrange, h.symm⟩
        · simp only [hbounds, if_false, hrange] at h
          cases h

/-- The tally of a level that a new value does not belong to. -/
theorem tally_append_of_not_mem (hbase : 2 ≤ base)
    (hout : ¬ (border ranges base level ≤ v ∧ v < border ranges base (level + 1))) :
    tally (values ++ [v]) ranges base level = tally values ranges base level := by
  have hrange : ∀ range ∈ List.range ranges, ¬ InRange ranges base level range v :=
    fun range hmem h => hout (h.bounds (List.mem_range.mp hmem) hbase)
  have hsum : (tally (values ++ [v]) ranges base level).Sum =
      (tally values ranges base level).Sum := by
    apply List.map_congr_left
    intro range hmem
    rw [List.filter_append, List.filter_cons_of_neg (by simpa using hrange range hmem),
      List.filter_nil, List.append_nil]
  have hcount : (tally (values ++ [v]) ranges base level).Count =
      (tally values ranges base level).Count := by
    apply List.map_congr_left
    intro range hmem
    rw [List.countP_append, List.countP_cons_of_neg (by simpa using hrange range hmem),
      List.countP_nil, Nat.add_zero]
  unfold tally at hsum hcount ⊢
  simp only at hsum hcount
  rw [hsum, hcount]

/-- Before the first value of a level its bucket is new. -/
theorem tally_of_forall_lt (hbase : 2 ≤ base)
    (hbelow : ∀ v ∈ values, v < border ranges base level) :
    tally values ranges base level = Bucket.new level ranges base := by
  have hnone : ∀ range ∈ List.range ranges, ∀ v ∈ values,
      ¬ InRange ranges base level range v := by
    intro range hmem v hv h
    have hbegin := (h.bounds (List.mem_range.mp hmem) hbase).1
    exact absurd (hbelow v hv) (Nat.not_lt.mpr hbegin)
  have hreplicate : ∀ f : ℕ → ℕ, (∀ range ∈ List.range ranges, f range = 0) →
      (List.range ranges).map f = List.replicate ranges 0 := by
    intro f hf
    rw [List.map_congr_left (g := fun _ => 0) hf, List.map_const', List.length_range]
  have hsum : (tally values ranges base level).Sum = List.replicate ranges 0 := by
    apply hreplicate
    intro range hmem
    rw [List.filter_eq_nil_iff.mpr (by simpa using hnone range hmem)]
    rfl
  have hcount : (tally values ranges base level).Count = List.replicate ranges 0 := by
    apply hreplicate
    intro range hmem
    exact List.countP_eq_zero.mpr (by simpa using hnone range hmem)
  unfold tally at hsum hcount ⊢
  simp only at hsum hcount
  rw [hsum, hcount]
  rfl

theorem modify_map_range {f f' g : ℕ → ℕ} {n i : ℕ}
    (hself : f' i = g (f i)) (hother : ∀ j, j ≠ i → f' j = f j) :
    ((List.range n).map f).modify i g = (List.range n).map f' := by
  apply List.ext_getElem
  · simp
  · intro j hj _
    rw [List.getElem_modify]
    simp only [List.getElem_map, List.getElem_range]
    split_ifs with heq
    · rw [← heq, hself]
    · exact (hother j (Ne.symm heq)).symm

/-- The tally of the level that a new value belongs to. -/
theorem tally_append_of_mem (hbase : 2 ≤ base) (hbegin : border ranges base level ≤ v) :
    tally (values ++ [v]) ranges base level =
      { tally values ranges base level with
        Sum := (tally values ranges base level).Sum.modify
          ((v - border ranges base level) / width base level) fun sum => add64 sum v
        Count := (tally values ranges base level).Count.modify
          ((v - border ranges base level) / width base level) fun count => count + 1 } := by
  have hsum : (tally values ranges base level).Sum.modify
      ((v - border ranges base level) / width base level) (fun sum => add64 sum v) =
      (tally (values ++ [v]) ranges base level).Sum := by
    apply modify_map_range
    · have hin := (@inRange_iff ranges base level _ v hbase hbegin).mpr rfl
      rw [List.filter_append, List.filter_cons_of_pos (by simpa using hin), List.filter_nil,
        List.sum_append, List.sum_singleton, add64, Nat.mod_add_mod]
    · intro j hj
      have hout : ¬ InRange ranges base level j v :=
        fun h => hj ((inRange_iff hbase hbegin).mp h).symm
      rw [List.filter_append, List.filter_cons_of_neg (by simpa using hout), List.filter_nil,
        List.append_nil]
  have hcount : (tally values ranges base level).Count.modify
      ((v - border ranges base level) / width base level) (fun count => count + 1) =
      (tally (values ++ [v]) ranges base level).Count := by
    apply modify_map_range
    · have hin := (@inRange_iff ranges base level _ v hbase hbegin).mpr rfl
      rw [List.countP_append, List.countP_cons_of_pos (by simpa using hin), List.countP_nil]
    · intro j hj
      have hout : ¬ InRange ranges base level j v :=
        fun h => hj ((inRange_iff hbase hbegin).mp h).symm
      rw [List.countP_append, List.countP_cons_of_neg (by simpa using hout), List.countP_nil,
        Nat.add_zero]
  rw [hsum, hcount]
  rfl

theorem set_map_range {β : Type} {f f' : ℕ → β} {x : β} {n i : ℕ} (hself : f' i = x)
    (hother : ∀ j, j ≠ i → f' j = f j) :
    ((List.range n).map f).set i x = (List.range n).map f' := by
  apply List.ext_getElem
  · simp
  · intro j hj _
    rw [List.getElem_set]
    simp only [List.getElem_map, List.getElem_range]
    split_ifs with heq
    · rw [← heq, hself]
    · exact (hother j (Ne.symm heq)).symm

namespace Counted

variable {levels : ℕ}

theorem rangesCount (hs : Counted values levels d) {level : ℕ} {bucket : Bucket}
    (hbucket : bucket ∈ d.resizeWith Bucket.new level) : bucket.RangesCount = d.ranges := by
  rw [Distribution.resizeWith, hs.histogram, List.mem_append, List.mem_map, List.mem_map] at hbucket
  rcases hbucket with ⟨j, -, rfl⟩ | ⟨j, -, rfl⟩
  · rfl
  · rfl

/-- The missed buckets are the tallies of their levels. -/
theorem resize (hs : Counted values levels d) (hranges : 0 < d.ranges) (hbase : 2 ≤ d.base)
    (level : ℕ) : d.resizeWith Bucket.new level =
      (List.range (max levels (level + 1))).map (tally values d.ranges d.base) := by
  have hlength : d.histogram.length = levels := by rw [hs.histogram, List.length_map,
    List.length_range]
  have hmax : max levels (level + 1) = levels + (level + 1 - levels) := by omega
  rw [Distribution.resizeWith, hlength, hs.histogram, hmax, List.range_add, List.map_append,
    List.range'_eq_map_range, List.map_map, List.map_map]
  congr 1
  apply List.map_congr_left
  intro j _
  refine (tally_of_forall_lt hbase ?_).symm
  intro v hv
  have hmono := (border_strictMono hranges hbase).monotone (Nat.le_add_right levels j)
  exact (hs.reached v hv).trans_le hmono

/-- The bucket that a value is counted in. -/
theorem getElem?_resize (hs : Counted values levels d) (hranges : 0 < d.ranges)
    (hbase : 2 ≤ d.base) (level : ℕ) :
    (d.resizeWith Bucket.new level)[level]? = some (tally values d.ranges d.base level) := by
  rw [hs.resize hranges hbase, List.getElem?_map, List.getElem?_range (by omega)]
  rfl

/-- A distribution without ranges counts nothing. -/
theorem ranges_pos (hs : Counted values levels d) (h : d.addWith Bucket.new v = .ok d') :
    0 < d.ranges := by
  obtain ⟨level, bucket, hbucket, -, -, hrange, -⟩ := addWith_ok h
  rw [hs.rangesCount (List.mem_of_getElem? hbucket)] at hrange
  exact Nat.zero_lt_of_lt hrange

theorem add (hs : Counted values levels d) (hbase : 2 ≤ d.base)
    (h : d.addWith Bucket.new v = .ok d') :
    ∃ levels', Counted (values ++ [v]) levels' d' ∧ d'.ranges = d.ranges ∧ d'.base = d.base := by
  have hranges := hs.ranges_pos h
  obtain ⟨level, bucket, hbucket, hbegin, hend, -, rfl⟩ := addWith_ok h
  rw [hs.getElem?_resize hranges hbase] at hbucket
  obtain rfl := Option.some.inj hbucket
  have hsize : (tally values d.ranges d.base level).RangeSize = width d.base level :=
    new_rangeSize hranges hbase level
  have hborder : (tally values d.ranges d.base level).Begin = border d.ranges d.base level :=
    new_begin level
  have hlast : (tally values d.ranges d.base level).End = border d.ranges d.base (level + 1) - 1 :=
    new_end level
  have hlt := border_lt hranges hbase level
  rw [hborder] at hbegin
  rw [hlast] at hend
  refine ⟨max levels (level + 1), ⟨?_, ?_, ?_, ?_⟩, rfl, rfl⟩
  · simp only
    rw [hs.resize hranges hbase]
    apply set_map_range
    · rw [tally_append_of_mem hbase hbegin, ← hborder, ← hsize]
    · intro j hj
      apply tally_append_of_not_mem hbase
      intro hin
      exact hj (level_unique hranges hbase hin ⟨hbegin, by omega⟩)
  · have hmono := (border_strictMono hranges hbase).monotone
    intro w hw
    simp only
    rcases List.mem_append.mp hw with hold | hnew
    · exact (hs.reached w hold).trans_le (hmono (le_max_left _ _))
    · obtain rfl := List.mem_singleton.mp hnew
      have hle := hmono (le_max_right levels (level + 1))
      omega
  · simp only [hs.total, add64, List.sum_append, List.sum_singleton, Nat.mod_add_mod]
  · simp only [hs.count, List.length_append, List.length_singleton]

theorem countAll {more : List ℕ} (hs : Counted values levels d) (hbase : 2 ≤ d.base)
    (h : Distribution.countAll Bucket.new more d = .ok d') :
    ∃ levels', Counted (values ++ more) levels' d' ∧ d'.ranges = d.ranges ∧ d'.base = d.base := by
  induction more generalizing values levels d with
  | nil =>
    cases h
    exact ⟨levels, by rwa [List.append_nil], rfl, rfl⟩
  | cons v more ih =>
    cases hadd : d.addWith Bucket.new v with
    | error failure =>
      rw [Distribution.countAll, hadd] at h
      cases h
    | ok next =>
      rw [Distribution.countAll, hadd] at h
      obtain ⟨levels', hnext, hranges, hbase'⟩ := hs.add hbase hadd
      obtain ⟨levels'', hdone, hranges', hbase''⟩ := ih hnext (hbase'.symm ▸ hbase) h
      rw [List.append_assoc] at hdone
      exact ⟨levels'', hdone, hranges'.trans hranges, hbase''.trans hbase'⟩

end Counted

/-! ### What is reported -/

/-- The range of a level as it is reported. -/
def histogramRange (values : List ℕ) (ranges base level range : ℕ) : HistogramRange :=
  ⟨border ranges base level + range * width base level,
    border ranges base level + width base level - 1 + range * width base level,
    values.countP fun v => InRange ranges base level range v⟩

theorem report_tally (hranges : 0 < ranges) (hbase : 2 ≤ base) :
    (tally values ranges base level).report =
      (List.range ranges).map (histogramRange values ranges base level) := by
  have hsize : (tally values ranges base level).RangeSize = width base level :=
    new_rangeSize hranges hbase level
  have hborder : (tally values ranges base level).Begin = border ranges base level :=
    new_begin level
  apply List.ext_getElem
  · simp [Bucket.report, tally]
  · intro j hj _
    simp only [Bucket.report, List.getElem_map, List.getElem_zipIdx, List.getElem_range, hsize,
      hborder, histogramRange, Nat.zero_add]
    simp only [tally, List.getElem_map, List.getElem_range]

theorem consecutive_rangeOf (hbase : 2 ≤ base) (n : ℕ) :
    Consecutive HistogramRange.begin HistogramRange.end' (border ranges base level)
        ((List.range n).map (histogramRange values ranges base level)) ∧
      behind HistogramRange.end' (border ranges base level)
          ((List.range n).map (histogramRange values ranges base level)) =
        border ranges base level + n * width base level := by
  have hpos := width_pos hbase level
  induction n with
  | zero => exact ⟨trivial, by simp [behind]⟩
  | succ n ih =>
    rw [List.range_succ, List.map_append, consecutive_append, behind_append, ih.2]
    simp only [List.map_singleton, Consecutive, behind, histogramRange, Nat.add_mul, Nat.one_mul]
    refine ⟨⟨ih.1, trivial, by omega, trivial⟩, by omega⟩

/-- The ranges of all levels. -/
def rangesOf (values : List ℕ) (ranges base levels : ℕ) : List HistogramRange :=
  (List.range levels).flatMap fun level =>
    (List.range ranges).map (histogramRange values ranges base level)

theorem consecutive_rangesOf (hbase : 2 ≤ base) (levels : ℕ) :
    Consecutive HistogramRange.begin HistogramRange.end' 0 (rangesOf values ranges base levels) ∧
      behind HistogramRange.end' 0 (rangesOf values ranges base levels) =
        border ranges base levels := by
  induction levels with
  | zero => exact ⟨trivial, rfl⟩
  | succ levels ih =>
    have hlevel := @consecutive_rangeOf values ranges base levels hbase
      ranges
    rw [rangesOf, List.range_succ, List.flatMap_append, List.flatMap_singleton, consecutive_append,
      behind_append, ← rangesOf, ih.2]
    exact ⟨⟨ih.1, hlevel.1⟩, hlevel.2.trans (border_add hbase levels)⟩

theorem Counted.getHistogram {levels : ℕ} (hs : Counted values levels d) (hranges : 0 < d.ranges)
    (hbase : 2 ≤ d.base) (hvalues : values ≠ []) :
    d.getHistogram = rangesOf values d.ranges d.base levels := by
  have hcount : ¬ d.count = 0 := by
    rw [hs.count, List.length_eq_zero_iff]
    exact hvalues
  rw [Distribution.getHistogram, if_neg hcount, hs.histogram, List.flatMap_map]
  unfold rangesOf
  congr 1
  funext level
  exact report_tally hranges hbase

end Counted

/-! ### Counting below `2 ^ 53` -/

section Exact

variable {ranges base top v : ℕ}

/-- The loop stops at the level whose bucket holds the value, while nothing overflows. -/
theorem getLevel_of_lt (hranges : 0 < ranges) (hbase : 2 ≤ base) (htop : v < base ^ top * ranges)
    (hfit : base ^ top * ranges < 2 ^ 64) (rounds level : ℕ) (hlevel : level ≤ top)
    (hrounds : top < rounds + level) (hbelow : border ranges base level ≤ v) :
    ∃ found, Distribution.getLevel ranges base v rounds level (base ^ level) = some found ∧
      found ≤ top ∧ border ranges base found ≤ v ∧ v < border ranges base (found + 1) := by
  induction rounds generalizing level with
  | zero => omega
  | succ rounds ih =>
    have hpow : base ^ level ≤ base ^ top := Nat.pow_le_pow_right (by omega) hlevel
    have hpos : 0 < base ^ level * ranges := Nat.mul_pos (Nat.pow_pos (by omega)) hranges
    have hle : base ^ level * ranges ≤ base ^ top * ranges := Nat.mul_le_mul_right _ hpow
    have hend : sub64 (mul64 (base ^ level) ranges) 1 = base ^ level * ranges - 1 := by
      rw [mul64_of_lt (by omega), sub64_of_le (by omega) (by omega)]
    unfold Distribution.getLevel
    simp only [hend]
    split_ifs with hlt
    · have hnext : level + 1 ≤ top := by
        by_contra hgreat
        have heq : level = top := by omega
        rw [heq] at hlt
        omega
      have hbase' : mul64 (base ^ level) base = base ^ (level + 1) := by
        have hfactor : base ^ (level + 1) ≤ base ^ top * ranges :=
          (Nat.pow_le_pow_right (by omega) hnext).trans (Nat.le_mul_of_pos_right _ hranges)
        rw [Nat.pow_succ] at hfactor
        rw [mul64_of_lt (by omega), Nat.pow_succ]
      rw [hbase']
      refine ih (level + 1) hnext (by omega) ?_
      simp only [border]
      omega
    · refine ⟨level, rfl, hlevel, hbelow, ?_⟩
      simp only [border]
      omega

/-- A bucket that ends below `2 ^ 53` is computed exactly. -/
theorem construct_eq {level : ℕ} (hranges : 0 < ranges)
    (hend : base ^ level * ranges ≤ 2 ^ 53) (hbase : 2 ≤ base) :
    Bucket.construct level ranges base = Bucket.new level ranges base := by
  have hpow : 0 < base ^ level := Nat.pow_pos (by omega)
  have hranges' : ranges ≤ 2 ^ 53 := (Nat.le_mul_of_pos_left _ hpow).trans hend
  have hpow' : base ^ level ≤ 2 ^ 53 := (Nat.le_mul_of_pos_right _ hranges).trans hend
  have hpows : ∀ k ≤ level, double (double base ^ k) = base ^ k := by
    intro k hk
    cases k with
    | zero =>
      rw [Nat.pow_zero, Nat.pow_zero]
      exact double_of_le (by decide)
    | succ k =>
      have hle : base ^ (k + 1) ≤ base ^ level := Nat.pow_le_pow_right (by omega) hk
      have hone : base ^ 1 ≤ base ^ (k + 1) := Nat.pow_le_pow_right (by omega) (by omega)
      rw [Nat.pow_one] at hone
      rw [double_of_le (hone.trans (hle.trans hpow')), double_of_le (hle.trans hpow')]
  have hprod : ∀ k ≤ level, base ^ k * ranges ≤ 2 ^ 53 := fun k hk =>
    (Nat.mul_le_mul_right _ (Nat.pow_le_pow_right (by omega) hk)).trans hend
  unfold Bucket.construct Bucket.new
  simp only [hpows level le_rfl, hpows (level - 1) (Nat.sub_le _ _), double_of_le hranges',
    double_of_le hend, double_of_le (hprod (level - 1) (Nat.sub_le _ _)),
    double_of_le ((Nat.sub_le _ 1).trans hend)]

/-- The value belongs to a bucket that ends below `2 ^ 53`. -/
def EndsBelow (ranges base v : ℕ) : Prop :=
  ∃ level, v < base ^ level * ranges ∧ base ^ level * ranges ≤ 2 ^ 53

variable {values : List ℕ} {d : Distribution} {levels : ℕ}

/-- Such a value is counted, as exact arithmetic has it. -/
theorem Counted.add_ok (hs : Counted values levels d) (hranges : 0 < d.ranges) (hbase : 2 ≤ d.base)
    (hends : EndsBelow d.ranges d.base v) :
    ∃ d', d.addWith Bucket.construct v = .ok d' ∧ d.addWith Bucket.new v = .ok d' := by
  obtain ⟨top, htop, hfit⟩ := hends
  have hsmall : top ≤ 53 := by
    by_contra hgreat
    have h54 : 2 ^ 54 ≤ d.base ^ top :=
      (Nat.pow_le_pow_left hbase 54).trans (Nat.pow_le_pow_right (by omega) (by omega))
    have := Nat.le_mul_of_pos_right (d.base ^ top) hranges
    omega
  obtain ⟨level, hlevel, hle, hbegin, hend⟩ := getLevel_of_lt hranges hbase htop (by omega) 65 0
    (Nat.zero_le _) (by omega) (Nat.zero_le _)
  rw [Nat.pow_zero] at hlevel
  have hborder : border d.ranges d.base (level + 1) ≤ 2 ^ 53 :=
    (Nat.mul_le_mul_right _ (Nat.pow_le_pow_right (by omega) hle)).trans hfit
  have hresize : d.resizeWith Bucket.construct level = d.resizeWith Bucket.new level := by
    refine congrArg (d.histogram ++ ·) (List.map_congr_left ?_)
    intro j hj
    obtain ⟨hlow, hj⟩ := List.mem_range'_1.mp hj
    have hmono := (border_strictMono hranges hbase).monotone (show j + 1 ≤ level + 1 by omega)
    exact construct_eq hranges (hmono.trans hborder) hbase
  have hsize : (tally values d.ranges d.base level).RangeSize = width d.base level :=
    new_rangeSize hranges hbase level
  have hfirst : (tally values d.ranges d.base level).Begin = border d.ranges d.base level :=
    new_begin level
  have hlast : (tally values d.ranges d.base level).End = border d.ranges d.base (level + 1) - 1 :=
    new_end level
  have hcount : (tally values d.ranges d.base level).RangesCount = d.ranges := rfl
  have hrange : (v - border d.ranges d.base level) / width d.base level < d.ranges := by
    rw [Nat.div_lt_iff_lt_mul (width_pos hbase level)]
    have := @border_add d.ranges d.base hbase level
    omega
  have hinside : ¬ (v < border d.ranges d.base level ∨
      border d.ranges d.base (level + 1) - 1 < v) := by omega
  have hadd : d.addWith Bucket.new v = d.addWith Bucket.construct v := by
    rw [Distribution.addWith, Distribution.addWith, hlevel, Option.elim_some, Option.elim_some,
      hresize]
  rw [← hadd, Distribution.addWith, hlevel, Option.elim_some, Distribution.insertInto,
    hs.getElem?_resize hranges hbase]
  simp only [Bucket.add, hfirst, hlast, hsize, hcount, hinside, if_false, hrange, if_true]
  exact ⟨_, rfl, rfl⟩

theorem Counted.countAll_ok {more : List ℕ} (hs : Counted values levels d) (hranges : 0 < d.ranges)
    (hbase : 2 ≤ d.base) (hends : ∀ v ∈ more, EndsBelow d.ranges d.base v) :
    ∃ d', Distribution.countAll Bucket.construct more d = .ok d' ∧
      Distribution.countAll Bucket.new more d = .ok d' := by
  induction more generalizing values levels d with
  | nil => exact ⟨d, rfl, rfl⟩
  | cons v more ih =>
    obtain ⟨next, hconstruct, hnew⟩ := hs.add_ok hranges hbase (hends v List.mem_cons_self)
    obtain ⟨levels', hnext, hranges', hbase'⟩ := hs.add hbase hnew
    rw [Distribution.countAll, Distribution.countAll, hconstruct, hnew]
    apply ih hnext (hranges'.symm ▸ hranges) (hbase'.symm ▸ hbase)
    intro w hw
    rw [hranges', hbase']
    exact hends w (List.mem_cons_of_mem v hw)

/-- The histogram partitions what has been counted. -/
structure Partitions (values : List ℕ) (d : Distribution) : Prop where
  consecutive : Consecutive HistogramRange.begin HistogramRange.end' 0 d.getHistogram
  disjoint : d.getHistogram.Pairwise fun r r' => r.end' < r'.begin
  covers : ∀ v ∈ values, ∃ r ∈ d.getHistogram, r.Holds v
  count : ∀ r ∈ d.getHistogram, r.count = values.countP fun v => r.Holds v
  counts : (d.getHistogram.map HistogramRange.count).sum = values.length
  sums : (d.histogram.flatMap Bucket.Sum).sum % 2 ^ 64 = d.total
  total : d.total = values.sum % 2 ^ 64
  sums_exact : values.sum < 2 ^ 64 → (d.histogram.flatMap Bucket.Sum).sum = values.sum

theorem mem_rangesOf {r : HistogramRange} (hr : r ∈ rangesOf values ranges base levels) :
    r.count = values.countP fun v => r.Holds v := by
  obtain ⟨level, -, hlevel⟩ := List.mem_flatMap.mp hr
  obtain ⟨range, -, rfl⟩ := List.mem_map.mp hlevel
  rfl

/-- The values of the ranges add up to those of the list. -/
theorem sum_rangesOf (hbase : 2 ≤ base) (hreached : ∀ v ∈ values, v < border ranges base levels)
    (f : ℕ → ℕ) : ((rangesOf values ranges base levels).map fun r =>
      ((values.filter fun v => r.Holds v).map f).sum).sum = (values.map f).sum := by
  obtain ⟨hconsecutive, hbehind⟩ :=
    @consecutive_rangesOf values ranges base hbase levels
  refine (hconsecutive.sum_within f values).trans ?_
  rw [List.filter_eq_self.mpr]
  intro v hv
  rw [decide_eq_true_eq, hbehind]
  exact ⟨Nat.zero_le v, hreached v hv⟩

theorem flatMap_sum (ranges base levels : ℕ) :
    ((List.range levels).map (tally values ranges base)).flatMap Bucket.Sum =
      (rangesOf values ranges base levels).map fun r =>
        (values.filter fun v => r.Holds v).sum % 2 ^ 64 := by
  rw [rangesOf, List.map_flatMap, List.flatMap_map]
  congr 1
  funext level
  rw [List.map_map]
  rfl

theorem sum_map_mod {α : Type} (as : List α) (f : α → ℕ) (n : ℕ) :
    (as.map fun a => f a % n).sum % n = (as.map f).sum % n := by
  induction as with
  | nil => rfl
  | cons a as ih =>
    rw [List.map_cons, List.sum_cons, Nat.mod_add_mod, Nat.add_mod, ih, ← Nat.add_mod]
    rfl

theorem Counted.partitions (hs : Counted values levels d) (hranges : 0 < d.ranges)
    (hbase : 2 ≤ d.base) : Partitions values d := by
  have hsum := sum_rangesOf hbase hs.reached
  have hexact : ((rangesOf values d.ranges d.base levels).map fun r =>
      (values.filter fun v => r.Holds v).sum).sum = values.sum := by
    simpa using hsum id
  have hsums : (d.histogram.flatMap Bucket.Sum).sum % 2 ^ 64 = d.total := by
    rw [hs.histogram, flatMap_sum, sum_map_mod, hexact, hs.total]
  have hsums_exact : values.sum < 2 ^ 64 →
      (d.histogram.flatMap Bucket.Sum).sum = values.sum := by
    intro hfit
    rw [hs.histogram, flatMap_sum, ← hexact]
    congr 1
    apply List.map_congr_left
    intro r _
    have hle : (values.filter fun v => r.Holds v).sum ≤ values.sum :=
      List.Sublist.sum_le_sum List.filter_sublist fun _ _ => Nat.zero_le _
    exact Nat.mod_eq_of_lt (hle.trans_lt hfit)
  by_cases hvalues : values = []
  · have hnone : d.getHistogram = [] := by
      rw [Distribution.getHistogram, hs.count, hvalues]
      rfl
    constructor
    · rw [hnone]
      trivial
    · rw [hnone]
      exact List.Pairwise.nil
    · simp [hvalues]
    · simp [hnone]
    · simp [hnone, hvalues]
    · exact hsums
    · exact hs.total
    · exact hsums_exact
  · have hhistogram := hs.getHistogram hranges hbase hvalues
    obtain ⟨hconsecutive, hbehind⟩ :=
      @consecutive_rangesOf values d.ranges d.base hbase levels
    constructor
    · rwa [hhistogram]
    · rw [hhistogram]
      exact hconsecutive.pairwise
    · intro v hv
      rw [hhistogram]
      exact hconsecutive.exists_within (Nat.zero_le v) (hbehind.symm ▸ hs.reached v hv)
    · rw [hhistogram]
      exact fun r hr => mem_rangesOf hr
    · have hones := hsum fun _ => 1
      simp only [List.map_const', List.sum_replicate_nat, Nat.mul_one] at hones
      rw [hhistogram, ← hones]
      congr 1
      apply List.map_congr_left
      intro r hr
      rw [mem_rangesOf hr, List.countP_eq_length_filter]
    · exact hsums
    · exact hs.total
    · exact hsums_exact

/-- Values whose buckets end below `2 ^ 53` are counted without failure, and the histogram
partitions them. -/
theorem countAll_partitions (unit : String) {ranges base : ℕ} (hranges : 0 < ranges)
    (hbase : 2 ≤ base) {values : List ℕ} (hends : ∀ v ∈ values, EndsBelow ranges base v) :
    ∃ d, Distribution.countAll Bucket.construct values (.new unit ranges base) = .ok d ∧
      Partitions values d := by
  have hs := counted_new unit ranges base
  obtain ⟨d, hconstruct, hnew⟩ := hs.countAll_ok hranges hbase hends
  obtain ⟨levels, hcounted, hranges', hbase'⟩ := hs.countAll hbase hnew
  exact ⟨d, hconstruct, hcounted.partitions (hranges'.symm ▸ hranges) (hbase'.symm ▸ hbase)⟩

theorem countAll_partitions_small : ∃ d,
    Distribution.countAll Bucket.construct [3, 0, 17] (.new "sector" 2 2) = .ok d ∧
      Partitions [3, 0, 17] d := by
  refine countAll_partitions "sector" (by decide) le_rfl ?_
  intro v hv
  refine ⟨4, ?_, by decide⟩
  simp only [List.mem_cons, List.not_mem_nil, or_false] at hv
  rcases hv with rfl | rfl | rfl <;> decide

/-- A bucket that ends at `2 ^ 53`: the product of its one range and the base `2 ^ 53 + 1` is
rounded, and the last value of the bucket is refused. -/
theorem end_rounded :
    (∀ v ∈ [2 ^ 53], ∃ level, v ≤ (2 ^ 53 + 1) ^ level * 1 - 1 ∧
      (2 ^ 53 + 1) ^ level * 1 - 1 ≤ 2 ^ 53) ∧
    Distribution.countAll Bucket.construct [2 ^ 53] (.new "sector" 1 (2 ^ 53 + 1)) =
      .error (.exception "Updating wrong distribution bucket") := by
  constructor
  · intro v hv
    obtain rfl := List.mem_singleton.mp hv
    exact ⟨1, by decide, by decide⟩
  · decide +kernel

end Exact

end Octf.Analytics
