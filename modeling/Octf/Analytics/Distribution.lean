import Octf.Foundation.Word
import Mathlib.Data.List.Basic
import Mathlib.Tactic.Common

/-! Distributions of values: a histogram in levels of buckets, each as wide as all levels below
it. The powers of the base are computed with `std::pow`, which is exact below `2 ^ 53`. -/
namespace Octf.Analytics
open Foundation

/-- How counting can fail. -/
inductive Failure where
  | exception (message : String)
  /-- The signal that ends the process. -/
  | divisionByZero
  /-- The rounds did not suffice. -/
  | running
  deriving DecidableEq

structure Bucket where
  Level : ℕ
  RangesCount : ℕ
  Begin : ℕ
  End : ℕ
  RangeSize : ℕ
  Sum : List ℕ
  Count : List ℕ
  deriving DecidableEq

namespace Bucket

/-- `Bucket::Bucket` in exact arithmetic. The code has its powers in doubles, which are the same
numbers up to `2 ^ 53`; beyond them a bucket may end elsewhere and `operator+=` refuse a value of
its level, and there this model ends. -/
def new (level ranges base : ℕ) : Bucket :=
  let Begin := if level ≠ 0 then base ^ (level - 1) * ranges else 0
  let End := base ^ level * ranges - 1
  ⟨level, ranges, Begin, End, (End - Begin + 1) / ranges, List.replicate ranges 0,
    List.replicate ranges 0⟩

/-- `operator+=`; the counts of values are not bounded here. -/
def add (value : ℕ) (bucket : Bucket) : Except Failure Bucket :=
  if value < bucket.Begin ∨ bucket.End < value then
    .error (.exception "Updating wrong distribution bucket")
  else
    let rangeId := (value - bucket.Begin) / bucket.RangeSize
    if rangeId < bucket.RangesCount then
      .ok { bucket with
        Sum := bucket.Sum.modify rangeId fun sum => add64 sum value
        Count := bucket.Count.modify rangeId fun count => count + 1 }
    else .error (.exception "Updating distribution bucket fatal error")

end Bucket

structure Distribution where
  unit : String
  ranges : ℕ
  base : ℕ
  total : ℕ
  count : ℕ
  min : ℕ
  max : ℕ
  histogram : List Bucket
  deriving DecidableEq

namespace Distribution

/-- For a base of at least two, which the constructor checks. -/
def new (unit : String) (ranges base : ℕ) : Distribution :=
  ⟨unit, ranges, base, 0, 0, 2 ^ 64 - 1, 0, []⟩

/-- `Distribution(const Distribution &)`; the assignment sets the same fields. Copies of buckets
have all their fields as well. -/
def copy (other : Distribution) : Distribution where
  unit := other.unit
  ranges := other.ranges
  base := other.base
  total := other.total
  count := other.count
  min := other.min
  max := other.max
  histogram := other.histogram

/-- The loop of `getBucket` that looks for the level, with a bound on its rounds. -/
def getLevel (ranges mBase value : ℕ) : (rounds : ℕ) → (level base : ℕ) → Option ℕ
  | 0, _, _ => none
  | rounds + 1, level, base =>
    let end' := sub64 (mul64 base ranges) 1
    if end' < value then getLevel ranges mBase value rounds (level + 1) (mul64 base mBase)
    else some level

/-- The histogram with the missed buckets up to a level. -/
def resize (level : ℕ) (d : Distribution) : List Bucket :=
  d.histogram ++ (List.range' d.histogram.length (level + 1 - d.histogram.length)).map
    fun j => Bucket.new j d.ranges d.base

/-- Count a value in the bucket of a level. -/
def addAt (value level : ℕ) (d : Distribution) : Except Failure Distribution :=
  let histogram := d.resize level
  match histogram[level]? with
  | none => .error .running
  | some bucket =>
    match bucket.add value with
    | .error failure => .error failure
    | .ok bucket => .ok { d with
      total := add64 d.total value
      count := d.count + 1
      min := Nat.min d.min value
      max := Nat.max d.max value
      histogram := histogram.set level bucket }

/-- `operator+=`; the base doubles at least, so 65 rounds reach the end of the words. -/
def add (value : ℕ) (d : Distribution) : Except Failure Distribution :=
  (getLevel d.ranges d.base value 65 0 1).elim (.error .running) fun level => d.addAt value level

/-! ### What a value adds -/

/-- The sum of the values in a range of a level. -/
def sumAt (d : Distribution) (level range : ℕ) : ℕ :=
  ((d.histogram[level]?).bind fun bucket => bucket.Sum[range]?).getD 0

/-- The number of the values in a range of a level. -/
def countAt (d : Distribution) (level range : ℕ) : ℕ :=
  ((d.histogram[level]?).bind fun bucket => bucket.Count[range]?).getD 0

/-- The buckets are those of the distribution, whatever they hold. -/
def WellFormed (d : Distribution) : Prop :=
  ∀ (level : ℕ) (bucket : Bucket), d.histogram[level]? = some bucket →
    ∃ sums counts : List ℕ, sums.length = d.ranges ∧ counts.length = d.ranges ∧
      bucket = { Bucket.new level d.ranges d.base with Sum := sums, Count := counts }

section Level

variable {ranges value : ℕ}

/-- The loop stops at the level whose bucket holds the value. -/
theorem getLevel_spec (hranges : 0 < ranges ∧ ranges ≤ 2 ^ 10) (hvalue : value < 2 ^ 53)
    (rounds level : ℕ) (hlevel : level ≤ 53) (hrounds : 53 < rounds + level)
    (hbelow : level = 0 ∨ 2 ^ (level - 1) * ranges ≤ value) :
    ∃ found, getLevel ranges 2 value rounds level (2 ^ level) = some found ∧
      (found = 0 ∨ 2 ^ (found - 1) * ranges ≤ value) ∧ value < 2 ^ found * ranges := by
  induction rounds generalizing level with
  | zero => omega
  | succ rounds ih =>
    have hpow : 2 ^ level ≤ 2 ^ 53 := Nat.pow_le_pow_right (by decide) hlevel
    have hpos : 0 < 2 ^ level := Nat.two_pow_pos level
    have hprod : 2 ^ level * ranges ≤ 2 ^ 53 * 2 ^ 10 := Nat.mul_le_mul hpow hranges.2
    have hone : 0 < 2 ^ level * ranges := Nat.mul_pos hpos hranges.1
    have hend : sub64 (mul64 (2 ^ level) ranges) 1 = 2 ^ level * ranges - 1 := by
      rw [mul64_of_lt (by omega), sub64_of_le (by omega) (by omega)]
    unfold getLevel
    simp only [hend]
    split_ifs with hlt
    · have hnext : mul64 (2 ^ level) 2 = 2 ^ (level + 1) := by
        rw [mul64_of_lt (by omega), Nat.pow_succ]
      have hreach : 2 ^ level * ranges ≤ value := by omega
      have hlevel' : level + 1 ≤ 53 := by
        by_contra hgreat
        have heq : level = 53 := by omega
        rw [heq] at hreach
        have hle : 2 ^ 53 * 1 ≤ 2 ^ 53 * ranges := Nat.mul_le_mul_left _ hranges.1
        omega
      rw [hnext]
      exact ih (level + 1) hlevel' (by omega) (Or.inr hreach)
    · exact ⟨level, rfl, hbelow, by omega⟩

/-- A bucket takes the values between its bounds. -/
theorem rangeId_lt (hranges : 0 < ranges) {level : ℕ}
    (hbelow : level = 0 ∨ 2 ^ (level - 1) * ranges ≤ value)
    (habove : value < 2 ^ level * ranges) :
    ¬ (value < (Bucket.new level ranges 2).Begin ∨ (Bucket.new level ranges 2).End < value) ∧
      (value - (Bucket.new level ranges 2).Begin) / (Bucket.new level ranges 2).RangeSize <
        ranges := by
  simp only [Bucket.new]
  rcases Nat.eq_zero_or_pos level with rfl | hpos
  · have hsize : (1 * ranges - 1 - 0 + 1) / ranges = 1 := by
      have heq : 1 * ranges - 1 - 0 + 1 = ranges := by omega
      rw [heq, Nat.div_self hranges]
    simp only [ne_eq, not_true_eq_false, if_false, Nat.pow_zero, hsize, Nat.div_one] at habove ⊢
    omega
  · obtain ⟨below, rfl⟩ := Nat.exists_eq_succ_of_ne_zero hpos.ne'
    have hbelow' : 2 ^ below * ranges ≤ value := by simpa using hbelow
    have hdouble : 2 ^ (below + 1) * ranges = 2 ^ below * ranges + 2 ^ below * ranges := by ring
    have hpow : 0 < 2 ^ below := Nat.two_pow_pos below
    have hone : 0 < 2 ^ below * ranges := Nat.mul_pos hpow hranges
    have hsize : (2 ^ (below + 1) * ranges - 1 - 2 ^ below * ranges + 1) / ranges = 2 ^ below := by
      have heq : 2 ^ (below + 1) * ranges - 1 - 2 ^ below * ranges + 1 = 2 ^ below * ranges := by
        omega
      rw [heq, Nat.mul_div_cancel _ hranges]
    rw [hdouble] at habove
    simp only [ne_eq, Nat.succ_eq_add_one, Nat.add_one_ne_zero, not_false_eq_true, if_true,
      Nat.add_sub_cancel, hsize]
    refine ⟨by omega, (Nat.div_lt_iff_lt_mul hpow).mpr ?_⟩
    rw [Nat.mul_comm ranges]
    omega

end Level

section Add

variable {d : Distribution} {value : ℕ}

theorem getElem?_resize (d : Distribution) (level j : ℕ) :
    (d.resize level)[j]? = if j < d.histogram.length then d.histogram[j]?
      else if j ≤ level then some (Bucket.new j d.ranges d.base) else none := by
  unfold resize
  by_cases hold : j < d.histogram.length
  · rw [if_pos hold, List.getElem?_append_left hold]
  · rw [if_neg hold, List.getElem?_append_right (by omega), List.getElem?_map]
    by_cases hlevel : j ≤ level
    · have hindex : d.histogram.length + 1 * (j - d.histogram.length) = j := by omega
      rw [List.getElem?_range' (by omega), hindex, if_pos hlevel]
      rfl
    · have hout : (List.range' d.histogram.length (level + 1 - d.histogram.length))[
          j - d.histogram.length]? = none := List.getElem?_eq_none (by
        rw [List.length_range']
        omega)
      rw [hout, if_neg hlevel]
      rfl

theorem WellFormed.resize (h : d.WellFormed) (level : ℕ) :
    ({ d with histogram := d.resize level } : Distribution).WellFormed := by
  intro j bucket hbucket
  change (d.resize level)[j]? = some bucket at hbucket
  rw [getElem?_resize] at hbucket
  split_ifs at hbucket
  · exact h j bucket hbucket
  · obtain rfl := Option.some.inj hbucket
    exact ⟨_, _, List.length_replicate, List.length_replicate, rfl⟩

/-- What a missing bucket would hold. -/
theorem sumAt_resize (d : Distribution) (level j range : ℕ) :
    ({ d with histogram := d.resize level } : Distribution).sumAt j range = d.sumAt j range ∧
      ({ d with histogram := d.resize level } : Distribution).countAt j range =
        d.countAt j range := by
  unfold sumAt countAt
  simp only [getElem?_resize]
  split_ifs with hold hlevel
  · exact ⟨rfl, rfl⟩
  · have hnone : d.histogram[j]? = none := List.getElem?_eq_none (not_lt.mp hold)
    simp only [hnone, Bucket.new, Option.bind_some, Option.bind_none, List.getElem?_replicate]
    constructor <;> split_ifs <;> rfl
  · have hnone : d.histogram[j]? = none := List.getElem?_eq_none (not_lt.mp hold)
    simp only [hnone, and_self]

/-- The level and the range of a value. -/
def place (ranges value : ℕ) : Option (ℕ × ℕ) :=
  (getLevel ranges 2 value 65 0 1).map fun level =>
    (level, (value - (Bucket.new level ranges 2).Begin) / (Bucket.new level ranges 2).RangeSize)

theorem getD_modify (xs : List ℕ) (f : ℕ → ℕ) {i : ℕ} (hi : i < xs.length) (j : ℕ) :
    ((xs.modify i f)[j]?).getD 0 = if j = i then f ((xs[j]?).getD 0) else (xs[j]?).getD 0 := by
  rw [List.getElem?_modify]
  by_cases hj : j = i
  · rw [hj, List.getElem?_eq_getElem hi]
    simp
  · have hne : ¬ i = j := fun h => hj h.symm
    simp [hj, hne]

/-- The values of a histogram after a bucket has been changed in one range. -/
theorem sumAt_set {level : ℕ} (range : ℕ) {bucket : Bucket}
    (hbucket : d.histogram[level]? = some bucket)
    (hsum : range < bucket.Sum.length) (hcount : range < bucket.Count.length) (f g : ℕ → ℕ)
    (j r : ℕ) :
    ({ d with histogram := d.histogram.set level { bucket with
          Sum := bucket.Sum.modify range f, Count := bucket.Count.modify range g } } :
        Distribution).sumAt j r =
      (if (level, range) = (j, r) then f (d.sumAt j r) else d.sumAt j r) ∧
    ({ d with histogram := d.histogram.set level { bucket with
          Sum := bucket.Sum.modify range f, Count := bucket.Count.modify range g } } :
        Distribution).countAt j r =
      (if (level, range) = (j, r) then g (d.countAt j r) else d.countAt j r) := by
  unfold sumAt countAt
  by_cases hj : j = level
  · obtain rfl := hj
    obtain ⟨hlt, -⟩ := List.getElem?_eq_some_iff.mp hbucket
    have hset : ∀ new : Bucket, (d.histogram.set j new)[j]? = some new :=
      fun _ => List.getElem?_set_self hlt
    simp only [hset, hbucket, Option.bind_some, getD_modify _ _ hsum, getD_modify _ _ hcount,
      Prod.mk.injEq, true_and, eq_comm (a := range), and_self]
  · have hset : ∀ new : Bucket, (d.histogram.set level new)[j]? = d.histogram[j]? := by
      intro new
      rw [List.getElem?_set_ne (fun h => hj h.symm)]
    have hne : ¬ (level, range) = (j, r) := fun h => hj (Prod.mk.inj h).1.symm
    simp only [hset, hne, if_false, and_self]

theorem WellFormed.set (h : d.WellFormed) {level : ℕ} {bucket : Bucket}
    (hbucket : d.histogram[level]? = some bucket) (range : ℕ) (f g : ℕ → ℕ) :
    ({ d with histogram := d.histogram.set level { bucket with
          Sum := bucket.Sum.modify range f, Count := bucket.Count.modify range g } } :
        Distribution).WellFormed := by
  intro j new hnew
  change (d.histogram.set level _)[j]? = some new at hnew
  by_cases hj : level = j
  · obtain rfl := hj
    obtain ⟨hlt, -⟩ := List.getElem?_eq_some_iff.mp hbucket
    rw [List.getElem?_set_self hlt] at hnew
    obtain rfl := Option.some.inj hnew
    obtain ⟨sums, counts, hsums, hcounts, rfl⟩ := h level bucket hbucket
    exact ⟨sums.modify range f, counts.modify range g, by rw [List.length_modify, hsums],
      by rw [List.length_modify, hcounts], rfl⟩
  · rw [List.getElem?_set_ne hj] at hnew
    exact h j new hnew

/-- What counting a value does. -/
structure Adds (value : ℕ) (d d' : Distribution) : Prop where
  wellFormed : d'.WellFormed
  ranges : d'.ranges = d.ranges
  base : d'.base = d.base
  total : d'.total = add64 d.total value
  count : d'.count = d.count + 1
  sumAt : ∀ level range, d'.sumAt level range =
    if place d.ranges value = some (level, range) then add64 (d.sumAt level range) value
    else d.sumAt level range
  countAt : ∀ level range, d'.countAt level range =
    if place d.ranges value = some (level, range) then d.countAt level range + 1
    else d.countAt level range

/-- The update, once the bucket is found. -/
theorem addAt_eq {level : ℕ} {bucket bucket' : Bucket}
    (hbucket : (d.resize level)[level]? = some bucket) (hadd : bucket.add value = .ok bucket') :
    d.addAt value level = .ok { d with
      total := add64 d.total value
      count := d.count + 1
      min := Nat.min d.min value
      max := Nat.max d.max value
      histogram := (d.resize level).set level bucket' } := by
  unfold addAt
  simp only [hbucket, hadd]

theorem add_eq {level : ℕ} (hlevel : getLevel d.ranges d.base value 65 0 1 = some level) :
    d.add value = d.addAt value level := by
  rw [add, hlevel, Option.elim_some]

/-- A value below `2 ^ 53` is counted, at its place. -/
theorem add_spec (h : d.WellFormed) (hbase : d.base = 2)
    (hranges : 0 < d.ranges ∧ d.ranges ≤ 2 ^ 10) (hvalue : value < 2 ^ 53) :
    ∃ d', d.add value = .ok d' ∧ Adds value d d' := by
  obtain ⟨level, hlevel, hbelow, habove⟩ :=
    getLevel_spec hranges hvalue 65 0 (by decide) (by decide) (Or.inl rfl)
  rw [Nat.pow_zero] at hlevel
  obtain ⟨hbounds, hrange⟩ := rangeId_lt hranges.1 hbelow habove
  generalize hid : (value - (Bucket.new level d.ranges 2).Begin) /
    (Bucket.new level d.ranges 2).RangeSize = range at hrange
  have hplace : place d.ranges value = some (level, range) := by
    rw [place, ← hid]
    rw [hlevel]
    rfl
  have hresized := h.resize level
  obtain ⟨bucket, hbucket⟩ : ∃ bucket, (d.resize level)[level]? = some bucket := by
    rw [getElem?_resize]
    split_ifs with hold hnew
    · exact ⟨_, List.getElem?_eq_getElem hold⟩
    · exact ⟨_, rfl⟩
    · exact absurd le_rfl hnew
  obtain ⟨sums, counts, hsums, hcounts, hbucketEq⟩ := hresized level bucket hbucket
  simp only [hbase] at hbucketEq hsums hcounts
  have hadd : bucket.add value = .ok { bucket with
      Sum := bucket.Sum.modify range fun sum => add64 sum value
      Count := bucket.Count.modify range fun count => count + 1 } := by
    have hcount : (Bucket.new level d.ranges 2).RangesCount = d.ranges := rfl
    rw [hbucketEq]
    unfold Bucket.add
    simp only [if_neg hbounds, hid, hcount, if_pos hrange]
  have hbins := sumAt_set (d := { d with histogram := d.resize level }) range hbucket
    (by rw [hbucketEq]; exact hsums.symm ▸ hrange)
    (by rw [hbucketEq]; exact hcounts.symm ▸ hrange) (fun sum => add64 sum value)
    fun count => count + 1
  refine ⟨{ d with
    total := add64 d.total value
    count := d.count + 1
    min := Nat.min d.min value
    max := Nat.max d.max value
    histogram := (d.resize level).set level { bucket with
      Sum := bucket.Sum.modify range fun sum => add64 sum value
      Count := bucket.Count.modify range fun count => count + 1 } }, ?_,
    hresized.set hbucket range _ _, rfl, rfl, rfl, rfl, fun j r => ?_, fun j r => ?_⟩
  · exact (add_eq (hbase.symm ▸ hlevel)).trans (addAt_eq hbucket hadd)
  · have hsame := (hbins j r).1
    rw [(sumAt_resize d level j r).1] at hsame
    refine hsame.trans (if_congr ?_ rfl rfl)
    rw [hplace, Option.some.injEq]
  · have hsame := (hbins j r).2
    rw [(sumAt_resize d level j r).2] at hsame
    refine hsame.trans (if_congr ?_ rfl rfl)
    rw [hplace, Option.some.injEq]

end Add

end Distribution

end Octf.Analytics
