import Octf.Analytics.HitMaps

/-! The LBA histogram of one device reports the ranges that the counted IOs intersect, each with the
number of these IOs. -/
namespace Octf.Analytics
open Foundation Octf.Parser

namespace IoStatistics

variable {rangeSize : ℕ} {s : IoStatistics}

/-- The IO is counted in the range of an entry. -/
def Hits (rangeSize : ℕ) (entry : Entry) (rangeBegin : ℕ) (io : ParsedIo) : Prop :=
  entry.Selects io ∧ Intersects rangeSize rangeBegin io

instance (rangeSize : ℕ) (entry : Entry) (rangeBegin : ℕ) (io : ParsedIo) :
    Decidable (Hits rangeSize entry rangeBegin io) := inferInstanceAs (Decidable (_ ∧ _))

/-- The ranges of an entry are those that an IO hits, each reported once with its sectors and the
number of the IOs. -/
structure ExactEntry (rangeSize : ℕ) (ios : List ParsedIo) (entry : Entry)
    (ranges : List HistogramRange) : Prop where
  distinct : (ranges.map HistogramRange.begin).Nodup
  reported : ∀ range ∈ ranges, range.end' = (range.begin + rangeSize - 1) % 2 ^ 64 ∧
    range.count = ios.countP fun io => Hits rangeSize entry range.begin io
  complete : ∀ rangeBegin, (∃ range ∈ ranges, range.begin = rangeBegin) ↔
    ∃ io ∈ ios, Hits rangeSize entry rangeBegin io

/-- An IO hits each of its ranges once. -/
theorem count_entryRanges (hpos : 0 < rangeSize) {io : ParsedIo} (hio : Fits io) (entry : Entry)
    (rangeBegin : ℕ) : (entryRanges true rangeSize entry io).count rangeBegin =
      if Hits rangeSize entry rangeBegin io then 1 else 0 := by
  unfold entryRanges hitRanges
  by_cases hselects : entry.Selects io
  · by_cases hlen : io.len = 0
    · have hnot : ¬ Hits rangeSize entry rangeBegin io := fun h => h.2.2.1 hlen
      simp [hlen, hnot]
    · rw [if_pos hselects, if_pos ⟨rfl, hlen⟩, count_spannedRanges hpos hio hlen]
      exact if_congr ⟨fun h => ⟨hselects, h⟩, fun h => h.2⟩ rfl rfl
  · rw [if_neg hselects, if_neg fun h => hselects h.1]
    rfl

theorem count_flatMap_entryRanges (hpos : 0 < rangeSize) {ios : List ParsedIo}
    (hios : ∀ io ∈ ios, Fits io) (entry : Entry) (rangeBegin : ℕ) :
    (ios.flatMap (entryRanges true rangeSize entry)).count rangeBegin =
      ios.countP fun io => Hits rangeSize entry rangeBegin io := by
  induction ios with
  | nil => rfl
  | cons io ios ih =>
    rw [List.flatMap_cons, List.count_append, count_entryRanges hpos (hios io List.mem_cons_self),
      ih fun io' hio' => hios io' (List.mem_cons_of_mem io hio'), List.countP_cons, Nat.add_comm]
    simp only [decide_eq_true_eq]

/-- What the report says of a map with the number of the IOs at each range. -/
theorem exactEntry_of_find {ios : List ParsedIo} {entry : Entry} {stats : Stats}
    (hsize : stats.lbaHitMapRangeSize = rangeSize) (hpos : 0 < rangeSize)
    (hfind : ∀ k, stats.lbaHitMap.find k =
      let number := ios.countP fun io => Hits rangeSize entry k io
      if number = 0 then none else some number) :
    ExactEntry rangeSize ios entry stats.getLbaHistogramEntry where
  distinct := by
    unfold Stats.getLbaHistogramEntry
    rw [List.map_map]
    exact List.pairwise_map.mpr (stats.lbaHitMap.sorted.imp fun hlt => hlt.ne)
  reported := by
    intro range hrange
    obtain ⟨e, he, rfl⟩ := List.mem_map.mp hrange
    have hvalue : stats.lbaHitMap.find e.1 = some e.2 := OrderedMap.find_eq_some_iff.mpr he
    rw [hfind] at hvalue
    dsimp only at hvalue
    split_ifs at hvalue
    refine ⟨?_, (Option.some.inj hvalue).symm⟩
    change sub64 (add64 e.1 stats.lbaHitMapRangeSize) 1 = (e.1 + rangeSize - 1) % 2 ^ 64
    rw [hsize]
    unfold sub64 add64
    omega
  complete := by
    intro k
    have hreported : (∃ range ∈ stats.getLbaHistogramEntry, range.begin = k) ↔
        stats.lbaHitMap.find k ≠ none := by
      rw [Ne, OrderedMap.find_eq_none_iff]
      simp [Stats.getLbaHistogramEntry]
    rw [hreported, hfind]
    dsimp only
    split_ifs with hzero
    · simpa using hzero
    · simpa [List.countP_eq_zero] using hzero

/-- A write that begins where a range begins, and ends behind the begin of the next one. -/
def borderWrite : ParsedEvent :=
  ⟨⟨1, 10⟩, some ⟨8, 9, .Write, false, 7, 1, 0, ⟨false, false, false, false, false⟩⟩,
    ⟨1, "disk", 0, ""⟩, none, []⟩

end IoStatistics

end Octf.Analytics
