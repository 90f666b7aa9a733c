import Octf.Analytics.Conservation
import Octf.Analytics.IoStatisticsSet
import Mathlib.Data.List.Find

/-! What the LBA histograms of a set of devices count: the IOs of a device that come after its
description has been repeated. -/
namespace Octf.Analytics
open Foundation Octf.Parser

namespace IoStatistics

variable {rangeSize : ℕ} {io : ParsedIo}

/-- The sectors of the IO are 64-bit words. -/
structure Fits (io : ParsedIo) : Prop where
  len : io.len < 2 ^ 64
  last : io.lba + io.len ≤ 2 ^ 64

/-- The IO has sectors in the range that begins at a sector. -/
def Intersects (rangeSize rangeBegin : ℕ) (io : ParsedIo) : Prop :=
  rangeSize ∣ rangeBegin ∧ io.len ≠ 0 ∧ io.lba < rangeBegin + rangeSize ∧
    rangeBegin < io.lba + io.len

instance (rangeSize rangeBegin : ℕ) (io : ParsedIo) :
    Decidable (Intersects rangeSize rangeBegin io) := inferInstanceAs (Decidable (_ ∧ _))

/-- The ranges an IO spans, without the arithmetic of words. -/
theorem spannedRanges_eq (hpos : 0 < rangeSize) (hio : Fits io) (hlen : io.len ≠ 0) :
    spannedRanges rangeSize io =
      (List.range ((io.lba + io.len - 1) / rangeSize - io.lba / rangeSize + 1)).map
        fun range => (io.lba / rangeSize + range) * rangeSize := by
  have hlast := hio.last
  have hlenWord := hio.len
  have hfirst : io.lba / rangeSize * rangeSize ≤ io.lba := Nat.div_mul_le_self _ _
  have hend : (io.lba + io.len - 1) / rangeSize * rangeSize ≤ io.lba + io.len - 1 :=
    Nat.div_mul_le_self _ _
  have hle : io.lba / rangeSize ≤ (io.lba + io.len - 1) / rangeSize :=
    Nat.div_le_div_right (by omega)
  have hlastSector : sub64 (add64 io.lba io.len) 1 = io.lba + io.len - 1 := by
    unfold add64 sub64
    omega
  have hquotient : sub64 ((io.lba + io.len - 1) / rangeSize * rangeSize)
      (io.lba / rangeSize * rangeSize) / rangeSize =
        (io.lba + io.len - 1) / rangeSize - io.lba / rangeSize := by
    rw [sub64_of_le (Nat.mul_le_mul_right _ hle) (by omega), ← Nat.sub_mul,
      Nat.mul_div_cancel _ hpos]
  have hspan : (io.lba + io.len - 1) / rangeSize - io.lba / rangeSize + 1 < 2 ^ 64 := by
    have hlt : io.lba + io.len - 1 < (io.lba / rangeSize + io.len) * rangeSize := by
      have hbase : io.lba < (io.lba / rangeSize + 1) * rangeSize :=
        Nat.lt_mul_of_div_lt (Nat.lt_succ_self _) hpos
      have hmore : (io.len - 1) * 1 ≤ (io.len - 1) * rangeSize := Nat.mul_le_mul_left _ hpos
      have hsum : io.lba / rangeSize + io.len = io.lba / rangeSize + 1 + (io.len - 1) := by omega
      rw [hsum, Nat.add_mul]
      omega
    have hquot := (Nat.div_lt_iff_lt_mul hpos).mpr hlt
    omega
  unfold spannedRanges
  simp only [hlastSector]
  rw [mul64_of_lt (by omega), mul64_of_lt (by omega), hquotient, add64_of_lt hspan]
  refine List.map_congr_left fun range hrange => ?_
  have hindex : io.lba / rangeSize + range ≤ (io.lba + io.len - 1) / rangeSize := by
    have hlt := List.mem_range.mp hrange
    omega
  have hproduct : (io.lba / rangeSize + range) * rangeSize ≤
      (io.lba + io.len - 1) / rangeSize * rangeSize := Nat.mul_le_mul_right _ hindex
  rw [Nat.add_mul] at hproduct ⊢
  rw [mul64_of_lt (by omega), add64_of_lt (by omega), Nat.add_comm]

/-- An IO spans each range it intersects once, and no other. -/
theorem count_spannedRanges (hpos : 0 < rangeSize) (hio : Fits io) (hlen : io.len ≠ 0)
    (rangeBegin : ℕ) : (spannedRanges rangeSize io).count rangeBegin =
      if Intersects rangeSize rangeBegin io then 1 else 0 := by
  have hle : io.lba / rangeSize ≤ (io.lba + io.len - 1) / rangeSize :=
    Nat.div_le_div_right (by omega)
  have hnodup : (spannedRanges rangeSize io).Nodup := by
    rw [spannedRanges_eq hpos hio hlen]
    refine List.nodup_range.map fun i j hij => ?_
    have hsame := Nat.eq_of_mul_eq_mul_right hpos hij
    omega
  rw [List.Nodup.count hnodup]
  refine if_congr ?_ rfl rfl
  rw [spannedRanges_eq hpos hio hlen, List.mem_map]
  constructor
  · rintro ⟨range, hrange, rfl⟩
    have hlt := List.mem_range.mp hrange
    have hlast := (Nat.le_div_iff_mul_le hpos).mp
      (show io.lba / rangeSize + range ≤ (io.lba + io.len - 1) / rangeSize by omega)
    have hfirst : io.lba < (io.lba / rangeSize + range + 1) * rangeSize :=
      Nat.lt_mul_of_div_lt (by omega) hpos
    rw [Nat.add_mul _ 1, Nat.one_mul] at hfirst
    exact ⟨Nat.dvd_mul_left _ _, hlen, hfirst, by omega⟩
  · rintro ⟨⟨q, rfl⟩, -, hbefore, hafter⟩
    have hfirst : io.lba / rangeSize ≤ q := by
      refine Nat.lt_succ_iff.mp ((Nat.div_lt_iff_lt_mul hpos).mpr ?_)
      rwa [Nat.succ_mul, Nat.mul_comm q]
    have hlast : q ≤ (io.lba + io.len - 1) / rangeSize := by
      refine (Nat.le_div_iff_mul_le hpos).mpr ?_
      rw [Nat.mul_comm]
      omega
    refine ⟨q - io.lba / rangeSize, List.mem_range.mpr (by omega), ?_⟩
    rw [Nat.add_sub_cancel' hfirst, Nat.mul_comm]

/-! ### The hits after `count` -/

variable {s s' : IoStatistics} {records records' : Stats × Stats}

/-- What a computation that succeeds has gone through. -/
theorem ok_of_bind {α β : Type} {x : Except Failure α} {f : α → Except Failure β} {b : β}
    (h : x >>= f = .ok b) : ∃ a, x = .ok a ∧ f a = .ok b := by
  cases x with
  | error failure => cases h
  | ok a => exact ⟨a, rfl, h⟩

theorem lbaHits_foldl (ranges : List ℕ) (stats : Stats) (rangeBegin : ℕ) :
    (Counter.lbaHits rangeBegin).value (ranges.foldl (fun s k => s.hit k) stats) =
      (Counter.lbaHits rangeBegin).value stats + ranges.count rangeBegin := by
  induction ranges generalizing stats with
  | nil => rfl
  | cons k ranges ih =>
    have hhit : (Counter.lbaHits rangeBegin).value (stats.hit k) =
        (Counter.lbaHits rangeBegin).value stats + [k].count rangeBegin := by
      change ((stats.lbaHitMap.alter k _).find rangeBegin).getD 0 = _
      rw [OrderedMap.find_alter]
      by_cases hk : rangeBegin = k
      · simp [Counter.value, hk]
      · simp [Counter.value, hk, eq_comm (a := k)]
    rw [List.foldl_cons, ih, hhit, Nat.add_assoc, ← List.singleton_append (l := ranges),
      List.count_append]

/-- Counting a value changes a distribution of both records and nothing else. -/
theorem eq_of_countValue {kind : Kind} {x : ℕ} (h : countValue kind x records = .ok records') :
    ∃ stats total, records' =
      (records.1.setDistribution kind stats, records.2.setDistribution kind total) := by
  unfold countValue at h
  split_ifs at h
  · obtain ⟨total, -, h⟩ := ok_of_bind h
    obtain ⟨stats, -, h⟩ := ok_of_bind h
    exact ⟨stats, total, (Except.ok.inj h).symm⟩
  · obtain rfl := Except.ok.inj h
    exact ⟨records.1.distribution kind, records.2.distribution kind, by cases kind <;> rfl⟩

/-- Distributions and errors are no hits. -/
theorem lbaHitMap_countValue {kind : Kind} {x : ℕ}
    (h : countValue kind x records = .ok records') :
    records'.1.lbaHitMap = records.1.lbaHitMap ∧ records'.2.lbaHitMap = records.2.lbaHitMap := by
  obtain ⟨stats, total, rfl⟩ := eq_of_countValue h
  cases kind <;> exact ⟨rfl, rfl⟩

theorem lbaHitMap_countError (error : Bool) (records : Stats × Stats) :
    (countError error records).1.lbaHitMap = records.1.lbaHitMap ∧
      (countError error records).2.lbaHitMap = records.2.lbaHitMap := by
  unfold countError
  split_ifs <;> exact ⟨rfl, rfl⟩

/-- Both records take the hits of the IO. -/
theorem lbaHits_countRecords {enabled : Bool}
    (h : countRecords enabled rangeSize io records = .ok records') (rangeBegin : ℕ) :
    (Counter.lbaHits rangeBegin).value records'.1 = (Counter.lbaHits rangeBegin).value records.1 +
        lbaGrowth enabled rangeSize io (.lbaHits rangeBegin) ∧
      (Counter.lbaHits rangeBegin).value records'.2 =
        (Counter.lbaHits rangeBegin).value records.2 +
          lbaGrowth enabled rangeSize io (.lbaHits rangeBegin) := by
  unfold countRecords at h
  obtain ⟨r₁, hr₁, h⟩ := ok_of_bind h
  obtain ⟨r₂, hr₂, h⟩ := ok_of_bind h
  obtain ⟨r₃, hr₃, h⟩ := ok_of_bind h
  have hsame : records'.1.lbaHitMap = r₁.1.lbaHitMap ∧ records'.2.lbaHitMap = r₁.2.lbaHitMap := by
    have h₂ := lbaHitMap_countValue hr₂
    have h₃ := lbaHitMap_countValue hr₃
    have h₄ := lbaHitMap_countError io.error r₃
    have h₅ := lbaHitMap_countValue h
    exact ⟨h₅.1.trans (h₄.1.trans (h₃.1.trans h₂.1)), h₅.2.trans (h₄.2.trans (h₃.2.trans h₂.2))⟩
  have hfirst : (Counter.lbaHits rangeBegin).value r₁.1 =
        (Counter.lbaHits rangeBegin).value records.1 +
          lbaGrowth enabled rangeSize io (.lbaHits rangeBegin) ∧
      (Counter.lbaHits rangeBegin).value r₁.2 = (Counter.lbaHits rangeBegin).value records.2 +
        lbaGrowth enabled rangeSize io (.lbaHits rangeBegin) := by
    unfold countLbaHits at hr₁
    unfold lbaGrowth
    split_ifs at hr₁ ⊢ with hcounted hzero
    · obtain rfl := Except.ok.inj hr₁
      rw [foldl_pair]
      exact ⟨lbaHits_foldl _ _ _, lbaHits_foldl _ _ _⟩
    · obtain rfl := Except.ok.inj hr₁
      exact ⟨rfl, rfl⟩
  simp only [Counter.value] at hfirst ⊢
  rw [hsame.1, hsame.2]
  exact hfirst

/-- Working sets and numbers of IOs are no hits. -/
theorem lbaHitMap_store (io : ParsedIo) (records : Stats × Stats) (s : IoStatistics) :
    (s.store io records).total.lbaHitMap = records.2.lbaHitMap ∧
      ∀ p, ((s.store io records).part p).lbaHitMap =
        if p = partOf io then records.1.lbaHitMap else (s.part p).lbaHitMap := by
  let placed := { s with total := records.2 }.setPart (partOf io) records.1
  have hsets : (placed.updateWorksets io).total.lbaHitMap = placed.total.lbaHitMap ∧
      ∀ p, ((placed.updateWorksets io).part p).lbaHitMap = (placed.part p).lbaHitMap := by
    unfold updateWorksets
    split_ifs
    · exact ⟨rfl, fun _ => rfl⟩
    · refine ⟨rfl, fun p => ?_⟩
      cases p with
      | operation type => by_cases htype : type = .Discard <;> simp [part, htype, Stats.updateWc]
      | flush => rfl
    · refine ⟨rfl, fun p => ?_⟩
      cases p with
      | operation type =>
        by_cases htype : type = io.operation <;> simp [part, htype, Stats.updateWc]
      | flush => rfl
  have hpart : ∀ p, (placed.part p).lbaHitMap =
      if p = partOf io then records.1.lbaHitMap else (s.part p).lbaHitMap := by
    intro p
    rw [part_setPart]
    split_ifs
    · rfl
    · cases p <;> rfl
  have htotal : placed.total = records.2 := total_setPart _ _ _
  constructor
  · change ((IoStatistics.setPart (partOf io) _ { placed.updateWorksets io with
      total := { (placed.updateWorksets io).total with
        count := (placed.updateWorksets io).total.count + 1 } }).total).lbaHitMap = _
    rw [total_setPart, ← htotal]
    exact hsets.1
  · intro p
    change ((IoStatistics.setPart (partOf io) { (placed.updateWorksets io).part (partOf io) with
      count := ((placed.updateWorksets io).part (partOf io)).count + 1 }
      { placed.updateWorksets io with
        total := { (placed.updateWorksets io).total with
          count := (placed.updateWorksets io).total.count + 1 } }).part p).lbaHitMap = _
    rw [part_setPart, ← hpart p, ← hsets.2 p]
    split_ifs with hp
    · rw [hp]
    · cases p <;> rfl

/-- What a count that succeeds does to the hits and the settings. -/
structure Hit (io : ParsedIo) (s s' : IoStatistics) : Prop where
  total : ∀ r, (Counter.lbaHits r).value s'.total = (Counter.lbaHits r).value s.total +
    lbaGrowth s.lbaHistEnabled s.lbaHistRangeSize io (.lbaHits r)
  part : ∀ p r, (Counter.lbaHits r).value (s'.part p) = (Counter.lbaHits r).value (s.part p) +
    if p = partOf io then lbaGrowth s.lbaHistEnabled s.lbaHistRangeSize io (.lbaHits r) else 0
  enabled : s'.lbaHistEnabled = s.lbaHistEnabled
  rangeSize : s'.lbaHistRangeSize = s.lbaHistRangeSize

theorem hit_of_count {event : ParsedEvent} (h : s.count event = .ok s') :
    Hit (eventIo event) s s' := by
  unfold count at h
  obtain ⟨records, hrecords, h⟩ := ok_of_bind h
  have hhits := lbaHits_countRecords hrecords
  obtain ⟨hstoreTotal, hstorePart⟩ := lbaHitMap_store (eventIo event) records s
  have hsettings := settings_store (eventIo event) records s
  obtain rfl := Except.ok.inj h
  refine ⟨fun r => ?_, fun p r => ?_, hsettings.1, hsettings.2⟩
  · refine Eq.trans ?_ (hhits r).2
    exact congrArg (fun m : OrderedMap ℕ => (m.find r).getD 0) hstoreTotal
  · have hmap := congrArg (fun m : OrderedMap ℕ => (m.find r).getD 0) (hstorePart p)
    have hkeep : ∀ startTime endTime, ({ s.store (eventIo event) records with
        startTime := startTime, endTime := endTime } : IoStatistics).part p =
          (s.store (eventIo event) records).part p := by
      intro _ _
      cases p <;> rfl
    simp only [Counter.value, hkeep]
    refine hmap.trans ?_
    split_ifs with hp
    · rw [hp]
      exact (hhits r).1
    · rfl

end IoStatistics

/-! ### What a report says -/

/-- The entries of an LBA histogram. -/
inductive Entry where
  | discard
  | write
  | read
  | total

/-- The IOs of an entry. -/
def Entry.Selects (io : ParsedIo) : Entry → Prop
  | .discard => io.operation = .Discard
  | .write => io.operation = .Write
  | .read => io.operation = .Read
  | .total => True

instance (io : ParsedIo) : ∀ entry : Entry, Decidable (entry.Selects io)
  | .discard => inferInstanceAs (Decidable (_ = _))
  | .write => inferInstanceAs (Decidable (_ = _))
  | .read => inferInstanceAs (Decidable (_ = _))
  | .total => .isTrue trivial

def IoHistogram.entry (histogram : IoHistogram) : Entry → List HistogramRange
  | .discard => histogram.discard
  | .write => histogram.write
  | .read => histogram.read
  | .total => histogram.total

/-- The count of the range that begins at a sector. -/
def hitsOf (ranges : List HistogramRange) (rangeBegin : ℕ) : ℕ :=
  ((ranges.find? fun range => range.begin = rangeBegin).map HistogramRange.count).getD 0

/-- The record an entry is made from. -/
def IoStatistics.record (s : IoStatistics) : Entry → Stats
  | .discard => s.part (.operation .Discard)
  | .write => s.part (.operation .Write)
  | .read => s.part (.operation .Read)
  | .total => s.total

theorem hitsOf_getLbaHistogramEntry (s : Stats) (rangeBegin : ℕ) :
    hitsOf s.getLbaHistogramEntry rangeBegin = (Counter.lbaHits rangeBegin).value s := by
  unfold hitsOf Stats.getLbaHistogramEntry
  rw [List.find?_map, Option.map_map]
  rfl

/-- Without the histogram enabled nothing is reported. -/
theorem hitsOf_getIoLbaHistogram (s : IoStatistics) (entry : Entry) (rangeBegin : ℕ) :
    hitsOf (s.getIoLbaHistogram.entry entry) rangeBegin =
      if s.lbaHistEnabled then (Counter.lbaHits rangeBegin).value (s.record entry) else 0 := by
  unfold IoStatistics.getIoLbaHistogram
  split_ifs
  · cases entry <;> exact hitsOf_getLbaHistogramEntry _ _
  · cases entry <;> rfl

namespace IoStatisticsSet

/-- The hits reported for a device. -/
def reported (id : ℕ) (entry : Entry) (rangeBegin : ℕ) (s : IoStatisticsSet) : ℕ :=
  match s.getIoLbaHistogramSet.find? fun device => device.1.Id = id with
  | some device => hitsOf (device.2.entry entry) rangeBegin
  | none => 0

/-- The IOs of a device. -/
def ios (id : ℕ) (calls : List Call) : List ParsedIo :=
  calls.filterMap fun
    | .count event => if event.device.id = id then some (eventIo event) else none
    | .addDevice _ => none

/-- The histogram of a device counts in each range the IOs that intersect it. -/
def Exact (rangeSize id : ℕ) (calls : List Call) (s : IoStatisticsSet) : Prop :=
  ∀ entry rangeBegin, s.reported id entry rangeBegin =
    (ios id calls).countP fun io =>
      entry.Selects io ∧ IoStatistics.Intersects rangeSize rangeBegin io

def Call.device : Call → ℕ
  | .addDevice devDesc => devDesc.id
  | .count event => event.device.id

/-- A device is described again after its first call. -/
def Repeated (id : ℕ) (calls : List Call) : Prop :=
  ∃ before after devDesc, calls = before ++ .addDevice devDesc :: after ∧ devDesc.id = id ∧
    ∃ call ∈ before, call.device = id

/-- Every IO of a device comes after its description has been repeated. -/
def Covered (id : ℕ) (calls : List Call) : Prop :=
  ∀ before after event, calls = before ++ .count event :: after → event.device.id = id →
    (eventIo event).len ≠ 0 → Repeated id before

/-! ### One call more -/

variable {id : ℕ} {calls : List Call} {call : Call} {io : ParsedIo}

theorem append_singleton_eq {xs before after : List Call} {x y : Call}
    (h : xs ++ [x] = before ++ y :: after) :
    (xs = before ∧ x = y) ∨ ∃ after', xs = before ++ y :: after' := by
  rcases List.eq_nil_or_concat after with rfl | ⟨after', z, rfl⟩
  · exact Or.inl (List.append_singleton_inj.mp h)
  · right
    refine ⟨after', ?_⟩
    rw [List.concat_eq_append, ← List.cons_append, ← List.append_assoc] at h
    exact (List.append_singleton_inj.mp h).1

theorem repeated_append : Repeated id (calls ++ [call]) ↔ Repeated id calls ∨
    (∃ devDesc, call = .addDevice devDesc ∧ devDesc.id = id ∧
      ∃ call ∈ calls, call.device = id) := by
  constructor
  · rintro ⟨before, after, devDesc, heq, hid, hbefore⟩
    rcases append_singleton_eq heq with ⟨rfl, rfl⟩ | ⟨after', rfl⟩
    · exact Or.inr ⟨devDesc, rfl, hid, hbefore⟩
    · exact Or.inl ⟨before, after', devDesc, rfl, hid, hbefore⟩
  · rintro (⟨before, after, devDesc, rfl, hid, hbefore⟩ | ⟨devDesc, rfl, hid, hbefore⟩)
    · exact ⟨before, after ++ [call], devDesc, by simp, hid, hbefore⟩
    · exact ⟨calls, [], devDesc, rfl, hid, hbefore⟩

theorem covered_append : Covered id (calls ++ [call]) ↔ Covered id calls ∧
    ∀ event, call = .count event → event.device.id = id → (eventIo event).len ≠ 0 →
      Repeated id calls := by
  constructor
  · intro h
    constructor
    · rintro before after event rfl
      exact h before (after ++ [call]) event (by simp)
    · rintro event rfl
      exact h calls [] event rfl
  · rintro ⟨h, hlast⟩ before after event heq
    rcases append_singleton_eq heq with ⟨rfl, rfl⟩ | ⟨after', rfl⟩
    · exact hlast event rfl
    · exact h before after' event rfl

/-- What the statistics of a device hold after the calls. -/
structure Tracks (rangeSize id : ℕ) (calls : List Call) (stats : IoStatistics) : Prop where
  setting : stats.lbaHistRangeSize = rangeSize
  enabled : stats.lbaHistEnabled = true ↔ Repeated id calls
  hits : ∃ late missed, (ios id calls).Perm (late ++ missed) ∧
    (stats.lbaHistEnabled = false → late = []) ∧ ((∀ io ∈ missed, io.len = 0) ↔ Covered id calls) ∧
    ∀ entry rangeBegin, (Counter.lbaHits rangeBegin).value (stats.record entry) =
      late.countP fun io =>
        Entry.Selects io entry ∧ IoStatistics.Intersects rangeSize rangeBegin io

variable {rangeSize : ℕ} {stats stats' : IoStatistics}

theorem ios_append : ios id (calls ++ [call]) = ios id calls ++ ios id [call] :=
  List.filterMap_append ..

theorem Tracks.of_not_called (h : ∀ call ∈ calls, call.device ≠ id) :
    Tracks rangeSize id calls (.new rangeSize) where
  setting := rfl
  enabled := by
    refine ⟨fun h => (nomatch h), ?_⟩
    rintro ⟨before, after, devDesc, rfl, hid, -⟩
    exact absurd hid (h (.addDevice devDesc) (by simp))
  hits := by
    have hios : ios id calls = [] := by
      refine List.filterMap_eq_nil_iff.mpr fun call hcall => ?_
      cases call with
      | addDevice devDesc => rfl
      | count event => exact if_neg (h (.count event) hcall)
    refine ⟨[], [], by rw [hios]; rfl, fun _ => rfl,
      ⟨fun _ before after event heq hid _ => ?_, fun _ => by simp⟩, fun entry rangeBegin => ?_⟩
    · exact absurd hid (h (.count event) (by simp [heq]))
    · cases entry <;> rfl

/-- A call on another device. -/
theorem Tracks.other (h : Tracks rangeSize id calls stats) (hne : call.device ≠ id) :
    Tracks rangeSize id (calls ++ [call]) stats where
  setting := h.setting
  enabled := by
    refine h.enabled.trans ((or_iff_left ?_).symm.trans repeated_append.symm)
    rintro ⟨devDesc, rfl, hid, -⟩
    exact hne hid
  hits := by
    obtain ⟨late, missed, hperm, hlate, hcovered, hhits⟩ := h.hits
    have hios : ios id [call] = [] := by
      cases call with
      | addDevice devDesc => rfl
      | count event =>
        have hother : ¬ event.device.id = id := hne
        simp [ios, hother]
    refine ⟨late, missed, ?_, hlate,
      hcovered.trans ((and_iff_left ?_).symm.trans covered_append.symm), hhits⟩
    · rwa [ios_append, hios, List.append_nil]
    · rintro event rfl hid
      exact absurd hid hne

/-- The description of the device, which enables its histogram when it is a repetition. -/
theorem Tracks.addDevice (h : Tracks rangeSize id calls stats) {devDesc : EventDeviceDescription}
    (hid : devDesc.id = id) (hrecord : ∀ entry, stats'.record entry = stats.record entry)
    (hsize : stats'.lbaHistRangeSize = stats.lbaHistRangeSize)
    (henabled : stats'.lbaHistEnabled = true ↔
      stats.lbaHistEnabled = true ∨ ∃ call ∈ calls, call.device = id) :
    Tracks rangeSize id (calls ++ [.addDevice devDesc]) stats' where
  setting := hsize.trans h.setting
  enabled := by
    rw [henabled, h.enabled, repeated_append]
    refine or_congr_right ⟨fun hcall => ⟨devDesc, rfl, hid, hcall⟩, ?_⟩
    rintro ⟨-, -, -, hcall⟩
    exact hcall
  hits := by
    obtain ⟨late, missed, hperm, hlate, hcovered, hhits⟩ := h.hits
    refine ⟨late, missed, ?_, fun hdisabled => hlate ?_,
      hcovered.trans ((and_iff_left ?_).symm.trans covered_append.symm),
      fun entry rangeBegin => (hrecord entry).symm ▸ hhits entry rangeBegin⟩
    · rw [ios_append]
      simpa [ios] using hperm
    · rw [Bool.eq_false_iff] at hdisabled ⊢
      exact fun henabled' => hdisabled (henabled.mpr (Or.inl henabled'))
    · exact fun event heq => (nomatch heq)

/-- The hits of an IO of non-zero length. -/
theorem hit_record (h : IoStatistics.Hit io stats stats') (hpos : 0 < stats.lbaHistRangeSize)
    (hio : IoStatistics.Fits io) (entry : Entry) (rangeBegin : ℕ) :
    (Counter.lbaHits rangeBegin).value (stats'.record entry) =
      (Counter.lbaHits rangeBegin).value (stats.record entry) +
        if stats.lbaHistEnabled = true ∧ entry.Selects io ∧
          IoStatistics.Intersects stats.lbaHistRangeSize rangeBegin io then 1 else 0 := by
  have hgrowth : IoStatistics.lbaGrowth stats.lbaHistEnabled stats.lbaHistRangeSize io
      (.lbaHits rangeBegin) = if stats.lbaHistEnabled = true ∧
        IoStatistics.Intersects stats.lbaHistRangeSize rangeBegin io then 1 else 0 := by
    unfold IoStatistics.lbaGrowth
    split_ifs with hcounted hhit hhit
    · rw [hitGrowth, IoStatistics.count_spannedRanges hpos hio hcounted.2, if_pos hhit.2]
    · rw [hitGrowth, IoStatistics.count_spannedRanges hpos hio hcounted.2,
        if_neg fun hmeets => hhit ⟨hcounted.1, hmeets⟩]
    · exact absurd ⟨hhit.1, hhit.2.2.1⟩ hcounted
    · rfl
  have hpart : ∀ type, (if Part.operation type = IoStatistics.partOf io then
      (if stats.lbaHistEnabled = true ∧
        IoStatistics.Intersects stats.lbaHistRangeSize rangeBegin io then 1 else 0) else 0) =
      if stats.lbaHistEnabled = true ∧ io.operation = type ∧
        IoStatistics.Intersects stats.lbaHistRangeSize rangeBegin io then 1 else 0 := by
    intro type
    by_cases hmeets : IoStatistics.Intersects stats.lbaHistRangeSize rangeBegin io
    · have hoperation : IoStatistics.partOf io = .operation io.operation :=
        if_neg fun hsync => hmeets.2.1 hsync.2
      simp only [hoperation, Part.operation.injEq, hmeets, and_true, eq_comm (a := type)]
      split_ifs <;> simp_all
    · simp [hmeets]
  cases entry with
  | total => rw [IoStatistics.record, IoStatistics.record, h.total, hgrowth]; simp [Entry.Selects]
  | discard => rw [IoStatistics.record, IoStatistics.record, h.part, hgrowth, hpart]; rfl
  | write => rw [IoStatistics.record, IoStatistics.record, h.part, hgrowth, hpart]; rfl
  | read => rw [IoStatistics.record, IoStatistics.record, h.part, hgrowth, hpart]; rfl

theorem Tracks.count (h : Tracks rangeSize id calls stats) {event : ParsedEvent}
    (hid : event.device.id = id) (hhit : IoStatistics.Hit (eventIo event) stats stats')
    (hpos : 0 < rangeSize) (hio : IoStatistics.Fits (eventIo event)) :
    Tracks rangeSize id (calls ++ [.count event]) stats' where
  setting := hhit.rangeSize.trans h.setting
  enabled := by
    rw [hhit.enabled, h.enabled, repeated_append]
    refine (or_iff_left ?_).symm
    rintro ⟨devDesc, heq, -⟩
    cases heq
  hits := by
    obtain ⟨late, missed, hperm, hlate, hcovered, hhits⟩ := h.hits
    have hios : ios id (calls ++ [.count event]) = ios id calls ++ [eventIo event] := by
      rw [ios_append]
      simp [ios, hid]
    have hlast : Covered id (calls ++ [.count event]) ↔
        Covered id calls ∧ ((eventIo event).len ≠ 0 → Repeated id calls) := by
      rw [covered_append]
      refine and_congr_right fun _ => ⟨fun hall => hall event rfl hid, ?_⟩
      rintro hrepeated event' heq - hlen
      obtain rfl := Call.count.inj heq
      exact hrepeated hlen
    have hadded := fun entry rangeBegin =>
      hit_record hhit (h.setting.symm ▸ hpos) hio entry rangeBegin
    rw [h.setting] at hadded
    have hfront : (ios id (calls ++ [.count event])).Perm (eventIo event :: (late ++ missed)) := by
      rw [hios]
      exact (List.perm_append_singleton _ _).trans (hperm.cons _)
    by_cases henabled : stats.lbaHistEnabled = true
    · refine ⟨eventIo event :: late, missed, hfront, fun hdisabled => ?_, ?_,
        fun entry rangeBegin => ?_⟩
      · rw [hhit.enabled, henabled] at hdisabled
        cases hdisabled
      · rw [hlast, hcovered]
        exact (and_iff_left fun _ => h.enabled.mp henabled).symm
      · rw [hadded, hhits, List.countP_cons]
        simp only [henabled, true_and, decide_eq_true_eq]
    · refine ⟨late, eventIo event :: missed, hfront.trans List.perm_middle.symm,
        fun _ => hlate (Bool.eq_false_iff.mpr henabled), ?_, fun entry rangeBegin => ?_⟩
      · have hnot : ¬ Repeated id calls := fun hrepeated => henabled (h.enabled.mpr hrepeated)
        rw [hlast, List.forall_mem_cons, hcovered, and_comm]
        refine and_congr_right fun _ => ⟨fun hzero hlen => absurd hzero hlen, fun hall => ?_⟩
        by_contra hlen
        exact hnot (hall hlen)
      · rw [hadded, hhits]
        simp only [henabled, Bool.false_eq_true, false_and, if_false, Nat.add_zero]

/-! ### Runs -/

variable {s s' : IoStatisticsSet}

/-- The statistics of a device. -/
def statistics (id : ℕ) (s : IoStatisticsSet) : Option IoStatistics :=
  (s.map.find id).map Prod.snd

/-- The set after the calls. -/
structure Holds (rangeSize : ℕ) (calls : List Call) (s : IoStatisticsSet) : Prop where
  keys : ∀ id entry, s.map.find id = some entry → entry.1.Id = id
  setting : s.lbaHitRangeSize = rangeSize
  enabled : s.lbaHistEnabled = true
  present : ∀ id, (s.statistics id).isSome = true ↔ ∃ call ∈ calls, call.device = id
  tracks : ∀ id, Tracks rangeSize id calls ((s.statistics id).getD (.new rangeSize))

theorem holds_new (rangeSize : ℕ) : Holds rangeSize [] (new rangeSize).enableLbaHistogram where
  keys _ _ h := nomatch h
  setting := rfl
  enabled := rfl
  present _ := ⟨fun h => (nomatch h), fun ⟨_, hmem, _⟩ => (nomatch hmem)⟩
  tracks _ := Tracks.of_not_called fun _ hmem => (nomatch hmem)

/-- A set in which a call has changed the statistics of its device. -/
theorem Holds.step (h : Holds rangeSize calls s) (entry : Key × IoStatistics)
    (hkey : entry.1.Id = call.device) (hmap : ∀ id, s'.map.find id =
      if id = call.device then some entry else s.map.find id)
    (hsetting : s'.lbaHitRangeSize = s.lbaHitRangeSize)
    (henabled : s'.lbaHistEnabled = s.lbaHistEnabled)
    (htracks : Tracks rangeSize call.device (calls ++ [call]) entry.2) :
    Holds rangeSize (calls ++ [call]) s' where
  keys id entry' hfind := by
    rw [hmap] at hfind
    split_ifs at hfind with hid
    · rw [← Option.some.inj hfind, hkey, hid]
    · exact h.keys id entry' hfind
  setting := hsetting.trans h.setting
  enabled := henabled.trans h.enabled
  present id := by
    have hlast : (∃ c ∈ calls ++ [call], c.device = id) ↔
        (∃ c ∈ calls, c.device = id) ∨ call.device = id := by simp [or_and_right, exists_or]
    rw [hlast, ← h.present, statistics, hmap]
    split_ifs with hid
    · simp [hid]
    · exact (or_iff_left fun heq => hid heq.symm).symm
  tracks id := by
    rw [statistics, hmap]
    split_ifs with hid
    · exact hid ▸ htracks
    · exact (h.tracks id).other fun heq => hid heq.symm

theorem Holds.addDevice (h : Holds rangeSize calls s) (devDesc : EventDeviceDescription) :
    Holds rangeSize (calls ++ [.addDevice devDesc]) (s.addDevice devDesc) := by
  have htracks := h.tracks devDesc.id
  have hpresent := h.present devDesc.id
  unfold statistics at htracks hpresent
  unfold IoStatisticsSet.addDevice
  cases hfind : s.map.find devDesc.id with
  | some entry =>
    rw [hfind] at htracks hpresent
    simp only [hfind, h.enabled, if_true]
    have hnone : (s.map.erase devDesc.id).find devDesc.id = none := by
      rw [OrderedMap.find_erase, if_pos rfl]
    refine h.step (⟨devDesc.id, devDesc.size, devDesc.name, devDesc.model⟩,
      entry.2.enableLbaHistogram) rfl (fun id => ?_) rfl h.enabled.symm ?_
    · rw [OrderedMap.find_emplace hnone, OrderedMap.find_erase]
      by_cases hid : id = devDesc.id <;> simp [Call.device, hid]
    · refine htracks.addDevice rfl (fun entry => ?_) rfl ?_
      · cases entry <;> rfl
      · simp only [IoStatistics.enableLbaHistogram, true_iff]
        exact Or.inr (hpresent.mp rfl)
  | none =>
    rw [hfind] at htracks hpresent
    simp only [hfind, getIoStatistics]
    refine h.step (⟨devDesc.id, devDesc.size, devDesc.name, devDesc.model⟩,
      .new s.lbaHitRangeSize) rfl (fun id => OrderedMap.find_emplace hfind id) rfl rfl ?_
    rw [h.setting]
    refine htracks.addDevice rfl (fun _ => rfl) rfl ?_
    have hnot : ¬ ∃ call ∈ calls, call.device = devDesc.id := fun hcall =>
      Bool.noConfusion (hpresent.mpr hcall)
    simp only [hnot, or_false]
    rfl

/-- Where the statistics of an event are, allocated if they were missing. -/
theorem getIoStatistics_spec (h : Holds rangeSize calls s) (id : ℕ) :
    ∃ entry map, s.getIoStatistics ⟨id, 0, "", ""⟩ = (entry, { s with map := map }) ∧
      entry.1.Id = id ∧ entry.2 = (s.statistics id).getD (.new rangeSize) ∧
      ∀ id' ≠ id, map.find id' = s.map.find id' := by
  unfold getIoStatistics statistics
  cases hfind : s.map.find id with
  | some entry => exact ⟨entry, s.map, rfl, h.keys id entry hfind, rfl, fun _ _ => rfl⟩
  | none =>
    refine ⟨_, _, rfl, rfl, by rw [h.setting]; rfl, fun id' hne => ?_⟩
    rw [OrderedMap.find_emplace hfind, if_neg hne]

theorem Holds.count (h : Holds rangeSize calls s) (hpos : 0 < rangeSize) {event : ParsedEvent}
    (hio : IoStatistics.Fits (eventIo event)) (hok : s.count event = .ok s') :
    Holds rangeSize (calls ++ [.count event]) s' := by
  obtain ⟨entry, map, hget, hkey, hentry, hothers⟩ := getIoStatistics_spec h event.device.id
  unfold IoStatisticsSet.count at hok
  simp only [hget] at hok
  obtain ⟨stats', hcount, hok⟩ := IoStatistics.ok_of_bind hok
  obtain rfl := Except.ok.inj hok
  refine h.step (entry.1, stats') hkey (fun id => ?_) rfl rfl ?_
  · change (map.alter event.device.id _).find id = if id = event.device.id then _ else _
    rw [OrderedMap.find_alter]
    by_cases hid : id = event.device.id
    · rw [if_pos hid, if_pos hid]
    · rw [if_neg hid, if_neg hid, hothers id hid]
  · exact (hentry ▸ h.tracks event.device.id).count rfl (IoStatistics.hit_of_count hcount) hpos hio

theorem Holds.next (h : Holds rangeSize calls s) (hpos : 0 < rangeSize)
    (hio : ∀ event, call = .count event → IoStatistics.Fits (eventIo event))
    (hok : call.step s = .ok s') : Holds rangeSize (calls ++ [call]) s' := by
  cases call with
  | addDevice devDesc =>
    obtain rfl := Except.ok.inj hok
    exact h.addDevice devDesc
  | count event => exact h.count hpos (hio event rfl) hok

theorem run_append (calls : List Call) (call : Call) (s : IoStatisticsSet) :
    run (calls ++ [call]) s = run calls s >>= fun s => call.step s := by
  rw [run, List.foldlM_append]
  refine congrArg (run calls s >>= ·) (funext fun s => ?_)
  rw [List.foldlM_cons]
  exact bind_pure _

theorem holds_run (hpos : 0 < rangeSize)
    (hio : ∀ event, Call.count event ∈ calls → IoStatistics.Fits (eventIo event))
    (hok : run calls (new rangeSize).enableLbaHistogram = .ok s) : Holds rangeSize calls s := by
  induction calls using List.reverseRecOn generalizing s with
  | nil =>
    obtain rfl := Except.ok.inj hok
    exact holds_new rangeSize
  | append_singleton calls call ih =>
    rw [run_append] at hok
    obtain ⟨s₁, hok₁, hstep⟩ := IoStatistics.ok_of_bind hok
    refine (ih (fun event hevent => hio event (List.mem_append_left _ hevent)) hok₁).next hpos
      ?_ hstep
    rintro event rfl
    exact hio event (by simp)

theorem reported_eq (h : Holds rangeSize calls s) (id : ℕ) (entry : Entry) (rangeBegin : ℕ) :
    s.reported id entry rangeBegin =
      hitsOf (((s.statistics id).getD (.new rangeSize)).getIoLbaHistogram.entry entry)
        rangeBegin := by
  have hfind : (s.getIoLbaHistogramSet.find? fun device => device.1.Id = id) =
      (s.map.find id).map fun entry => (entry.1, entry.2.getIoLbaHistogram) := by
    unfold getIoLbaHistogramSet OrderedMap.find
    rw [List.find?_map, Option.map_map]
    have hsame : s.map.entries.find? (fun e => decide (e.2.1.Id = id)) =
        s.map.entries.find? fun e => e.1 = id := by
      refine List.find?_congr fun e he => ?_
      rw [h.keys e.1 e.2 (OrderedMap.find_eq_some_iff.mpr he)]
    exact congrArg _ hsame
  unfold reported statistics
  rw [hfind]
  cases s.map.find id with
  | some entry => rfl
  | none => cases entry <;> rfl

/-- An IO of non-zero length intersects a range. -/
theorem exists_intersects (hpos : 0 < rangeSize) (hlen : io.len ≠ 0) :
    ∃ rangeBegin, IoStatistics.Intersects rangeSize rangeBegin io := by
  have hfirst : io.lba / rangeSize * rangeSize ≤ io.lba := Nat.div_mul_le_self _ _
  have hnext : io.lba < (io.lba / rangeSize + 1) * rangeSize :=
    Nat.lt_mul_of_div_lt (Nat.lt_succ_self _) hpos
  rw [Nat.add_mul, Nat.one_mul] at hnext
  exact ⟨io.lba / rangeSize * rangeSize, Nat.dvd_mul_left _ _, hlen, hnext, by omega⟩

theorem Holds.exact_iff (h : Holds rangeSize calls s) (hpos : 0 < rangeSize) (id : ℕ) :
    s.Exact rangeSize id calls ↔ Covered id calls := by
  obtain ⟨late, missed, hperm, hlate, hcovered, hhits⟩ := (h.tracks id).hits
  have hreported : ∀ entry rangeBegin, s.reported id entry rangeBegin = late.countP fun io =>
      Entry.Selects io entry ∧ IoStatistics.Intersects rangeSize rangeBegin io := by
    intro entry rangeBegin
    rw [reported_eq h, hitsOf_getIoLbaHistogram]
    split_ifs with henabled
    · exact hhits entry rangeBegin
    · rw [hlate (Bool.eq_false_iff.mpr henabled)]
      rfl
  unfold Exact
  rw [← hcovered]
  constructor
  · intro hexact io hio
    by_contra hlen
    obtain ⟨rangeBegin, hmeets⟩ := exists_intersects hpos hlen
    have hsame := hexact .total rangeBegin
    rw [hreported, hperm.countP_eq, List.countP_append] at hsame
    have hzero : missed.countP (fun io => decide (Entry.Selects io .total ∧
        IoStatistics.Intersects rangeSize rangeBegin io)) = 0 := by omega
    exact (List.countP_eq_zero.mp hzero io hio) (by simpa [Entry.Selects] using hmeets)
  · intro hzero entry rangeBegin
    rw [hreported, hperm.countP_eq, List.countP_append]
    refine (Nat.add_eq_left.mpr (List.countP_eq_zero.mpr fun io hio => ?_)).symm
    rw [decide_eq_true_eq]
    exact fun hmeets => hmeets.2.2.1 (hzero io hio)

/-! ### Runs that succeed -/

/-- The statistics of all devices are valid. -/
def Valid (s : IoStatisticsSet) : Prop := ∀ id entry, s.map.find id = some entry → entry.2.Valid

theorem valid_enableLbaHistogram {stats : IoStatistics} (h : stats.Valid) :
    stats.enableLbaHistogram.Valid := by
  refine ⟨h.total, fun p => ?_⟩
  rw [IoStatistics.part_enableLbaHistogram]
  exact h.part p

theorem Valid.addDevice (h : s.Valid) (devDesc : EventDeviceDescription) :
    (s.addDevice devDesc).Valid := by
  unfold IoStatisticsSet.addDevice
  cases hfind : s.map.find devDesc.id with
  | some entry =>
    have hnone : (s.map.erase devDesc.id).find devDesc.id = none := by
      rw [OrderedMap.find_erase, if_pos rfl]
    intro id entry' hentry
    simp only [hfind, OrderedMap.find_emplace hnone, OrderedMap.find_erase] at hentry
    split_ifs at hentry
    · obtain rfl := Option.some.inj hentry
      exact valid_enableLbaHistogram (h devDesc.id entry hfind)
    · obtain rfl := Option.some.inj hentry
      exact h devDesc.id entry hfind
    · exact h id entry' hentry
  | none =>
    intro id entry' hentry
    simp only [hfind, getIoStatistics, OrderedMap.find_emplace hfind] at hentry
    split_ifs at hentry
    · obtain rfl := Option.some.inj hentry
      exact IoStatistics.valid_new _
    · exact h id entry' hentry

theorem Holds.exists_count (h : Holds rangeSize calls s) (hvalid : s.Valid) (hpos : 0 < rangeSize)
    {event : ParsedEvent} (hio : IoStatistics.Bounded (eventIo event)) :
    ∃ s', s.count event = .ok s' ∧ s'.Valid := by
  obtain ⟨entry, map, hget, hkey, hentry, hothers⟩ := getIoStatistics_spec h event.device.id
  have hstats : entry.2.Valid := by
    rw [hentry, statistics]
    cases hfind : s.map.find event.device.id with
    | some entry => exact hvalid _ _ hfind
    | none => exact IoStatistics.valid_new _
  have hsize : entry.2.lbaHistRangeSize ≠ 0 := by
    rw [hentry, (h.tracks event.device.id).setting]
    exact hpos.ne'
  obtain ⟨hzero, -⟩ | ⟨stats', hok, hcounted⟩ := IoStatistics.count_spec hstats hio
  · exact absurd hzero hsize
  · refine ⟨_, by unfold IoStatisticsSet.count; simp only [hget, hok, IoStatistics.bind_ok]; rfl,
      fun id entry' hentry' => ?_⟩
    simp only [OrderedMap.find_alter] at hentry'
    split_ifs at hentry' with hid
    · obtain rfl := Option.some.inj hentry'
      exact hcounted.valid
    · exact hvalid id entry' (hothers id hid ▸ hentry')

theorem exists_run (hpos : 0 < rangeSize)
    (hcalls : ∀ event, Call.count event ∈ calls →
      IoStatistics.Fits (eventIo event) ∧ IoStatistics.Bounded (eventIo event)) :
    ∃ s, run calls (new rangeSize).enableLbaHistogram = .ok s ∧ s.Valid := by
  induction calls using List.reverseRecOn with
  | nil => exact ⟨_, rfl, fun _ _ h => (nomatch h)⟩
  | append_singleton calls call ih =>
    have hbefore : ∀ event, Call.count event ∈ calls →
        IoStatistics.Fits (eventIo event) ∧ IoStatistics.Bounded (eventIo event) :=
      fun event hevent => hcalls event (List.mem_append_left _ hevent)
    obtain ⟨s, hok, hvalid⟩ := ih hbefore
    rw [run_append, hok]
    cases call with
    | addDevice devDesc => exact ⟨_, rfl, hvalid.addDevice devDesc⟩
    | count event =>
      have hholds := holds_run hpos (fun event hevent => (hbefore event hevent).1) hok
      exact hholds.exists_count hvalid hpos (hcalls event (by simp)).2

def description : EventDeviceDescription := ⟨1, "disk", 4096, ""⟩

/-- A read of twelve sectors. -/
def readEvent : ParsedEvent :=
  ⟨⟨1, 10⟩, some ⟨4, 12, .Read, false, 7, 1, 0, ⟨false, false, false, false, false⟩⟩,
    ⟨1, "disk", 0, ""⟩, none, []⟩

/-- A device that is described twice before its read. -/
def describedTwice : List Call :=
  [.addDevice description, .addDevice description, .count readEvent]

theorem eq_readEvent_of_mem (descriptions : List Call) {event : ParsedEvent}
    (hdescriptions : ∀ call ∈ descriptions, call = .addDevice description)
    (hevent : Call.count event ∈ descriptions ++ [.count readEvent]) : event = readEvent := by
  rcases List.mem_append.mp hevent with hmem | hmem
  · cases hdescriptions _ hmem
  · exact Call.count.inj (List.mem_singleton.mp hmem)

theorem fits_readEvent : IoStatistics.Fits (eventIo readEvent) := ⟨by decide, by decide⟩

theorem bounded_readEvent : IoStatistics.Bounded (eventIo readEvent) :=
  ⟨by decide, by decide, by decide⟩

/-- A device that is described once. -/
def describedOnce : List Call := [.addDevice description, .count readEvent]

end IoStatisticsSet

end Octf.Analytics
