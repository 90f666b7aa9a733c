import Octf.Analytics.HitMaps
import Octf.Analytics.Percentiles

/-! What the statistics of one device report. The start time is remembered with zero for none, so
the duration leaves out the events before the first one with another time. -/
namespace Octf.Analytics
open Foundation Octf.Parser

/-- `proto::StatisticsMetric` -/
structure StatisticsMetric where
  unit : String
  value : ℚ
  deriving DecidableEq

/-- `proto::IoStatisticsEntry` -/
structure IoStatisticsEntry where
  size : Option Distribution.StatisticsEntryValues
  latency : Option Distribution.StatisticsEntryValues
  count : ℕ
  metrics : List (String × StatisticsMetric)
  errors : ℕ

/-- `proto::IoStatistics`, without the description of the device. -/
structure IoStatisticsReport where
  read : IoStatisticsEntry
  write : IoStatisticsEntry
  discard : IoStatisticsEntry
  flush : IoStatisticsEntry
  total : IoStatisticsEntry
  duration : ℕ

/-- `proto::Histogram` -/
structure Histogram where
  unit : String
  range : List HistogramRange
  deriving DecidableEq

/-- `proto::IoHistogram`, where a report leaves out the entries that it does not set. -/
structure IoHistogramReport where
  read : Option Histogram
  write : Option Histogram
  discard : Option Histogram
  flush : Option Histogram
  total : Option Histogram
  duration : ℕ
  deriving DecidableEq

namespace Stats

/-- The metrics in exact arithmetic. -/
def getIoStatisticsEntry (beginTime endTime : ℕ) (s : Stats) : IoStatisticsEntry :=
  let durationS : ℚ := sub64 endTime beginTime / 1000 / 1000 / 1000
  let iops : ℚ := if durationS ≠ 0 then s.count / durationS else 0
  -- in MiB
  let total : ℚ := s.sizeDistribution.total * (512 / 1024 / 1024)
  let bandwidth : ℚ := if durationS ≠ 0 then total / durationS else 0
  { size := s.sizeDistribution.getStatistics.map Prod.fst
    latency := s.latencyDistribution.getStatistics.map Prod.fst
    count := s.count
    metrics := [("throughput", ⟨"IOPS", iops⟩), ("bandwidth", ⟨"MiB/s", bandwidth⟩),
      ("workset", ⟨"sector", s.wc.getWorkset⟩)]
    errors := s.errors }

def getHistogramEntry (kind : Kind) (s : Stats) : Histogram :=
  ⟨(s.distribution kind).unit, (s.distribution kind).getHistogram⟩

def getLatencyHistogramEntry : Stats → Histogram := getHistogramEntry .latency

def getSizeHistogramEntry : Stats → Histogram := getHistogramEntry .size

def getQueueDepthHistogramEntry : Stats → Histogram := getHistogramEntry .qd

end Stats

namespace IoStatistics

/-- `m_endTime - m_startTime` -/
def duration (s : IoStatistics) : ℕ := sub64 s.endTime s.startTime

def getIoStatistics (s : IoStatistics) : IoStatisticsReport where
  read := (s.statistics .Read).getIoStatisticsEntry s.startTime s.endTime
  write := (s.statistics .Write).getIoStatisticsEntry s.startTime s.endTime
  discard := (s.statistics .Discard).getIoStatisticsEntry s.startTime s.endTime
  flush := s.flush.getIoStatisticsEntry s.startTime s.endTime
  total := s.total.getIoStatisticsEntry s.startTime s.endTime
  duration := s.duration

def getIoLatencyHistogram (s : IoStatistics) : IoHistogramReport where
  read := some (s.statistics .Read).getLatencyHistogramEntry
  write := some (s.statistics .Write).getLatencyHistogramEntry
  discard := some (s.statistics .Discard).getLatencyHistogramEntry
  flush := some s.flush.getLatencyHistogramEntry
  total := some s.total.getLatencyHistogramEntry
  duration := s.duration

def getIoSizeHistogram (s : IoStatistics) : IoHistogramReport where
  read := some (s.statistics .Read).getSizeHistogramEntry
  write := some (s.statistics .Write).getSizeHistogramEntry
  discard := none
  flush := none
  total := none
  duration := s.duration

def getQueueDepthHistogram (s : IoStatistics) : IoHistogramReport where
  read := some (s.statistics .Read).getQueueDepthHistogramEntry
  write := some (s.statistics .Write).getQueueDepthHistogramEntry
  discard := none
  flush := none
  total := some s.total.getQueueDepthHistogramEntry
  duration := s.duration

/-! ### The times -/

variable {s s' : IoStatistics} {events : List ParsedEvent}

theorem startTime_setPart (p : Part) (stats : Stats) (s : IoStatistics) :
    (s.setPart p stats).startTime = s.startTime := by
  cases p <;> rfl

theorem startTime_store (io : ParsedIo) (records : Stats × Stats) (s : IoStatistics) :
    (s.store io records).startTime = s.startTime := by
  let placed := { s with total := records.2 }.setPart (partOf io) records.1
  have hplaced : placed.startTime = s.startTime := startTime_setPart ..
  have hsets : (placed.updateWorksets io).startTime = placed.startTime := by
    unfold updateWorksets
    split_ifs <;> rfl
  unfold store
  rw [startTime_setPart]
  exact hsets.trans hplaced

/-- The first time is kept unless it is zero; the last one is always replaced. -/
theorem times_of_count {event : ParsedEvent} (h : s.count event = .ok s') :
    s'.startTime = (if s.startTime = 0 then event.header.timestamp else s.startTime) ∧
      s'.endTime = event.header.timestamp := by
  unfold count at h
  obtain ⟨records, -, h⟩ := ok_of_bind h
  obtain rfl := Except.ok.inj h
  refine ⟨?_, rfl⟩
  rw [← startTime_store (eventIo event) records s]

def timestamps (events : List ParsedEvent) : List ℕ :=
  events.map fun event => event.header.timestamp

/-- The start is the first time that is not zero. -/
theorem times_of_countAll (h : countAll events s = .ok s') :
    s'.startTime = ((s.startTime :: timestamps events).find? fun time => time ≠ 0).getD 0 ∧
      s'.endTime = (timestamps events).getLastD s.endTime := by
  induction events generalizing s with
  | nil =>
    obtain rfl := Except.ok.inj h
    refine ⟨?_, rfl⟩
    by_cases hzero : s.startTime = 0 <;> simp [timestamps, hzero]
  | cons event events ih =>
    rw [countAll_cons] at h
    obtain ⟨s₁, hcount, hrest⟩ := ok_of_bind h
    obtain ⟨hstart, hend⟩ := times_of_count hcount
    obtain ⟨hfirst, hlast⟩ := ih hrest
    constructor
    · rw [hfirst, hstart]
      by_cases hzero : s.startTime = 0 <;> simp [timestamps, hzero]
    · rw [hlast, hend]
      exact (List.getLastD_cons ..).symm

/-- Statistics that have counted nothing. -/
def start (rangeSize : ℕ) (lbaHistEnabled : Bool) : IoStatistics :=
  if lbaHistEnabled then (new rangeSize).enableLbaHistogram else new rangeSize

theorem times_start (rangeSize : ℕ) (lbaHistEnabled : Bool) :
    (start rangeSize lbaHistEnabled).startTime = 0 := by
  unfold start
  split_ifs <;> rfl

theorem le_last {times : List ℕ} {time last : ℕ} (hlast : times.getLast? = some last)
    (hsorted : times.Pairwise (· ≤ ·)) (htime : time ∈ times) : time ≤ last := by
  obtain ⟨before, hbefore⟩ := List.getLast?_eq_some_iff.mp hlast
  rw [hbefore] at hsorted htime
  rcases List.mem_append.mp htime with hmem | hmem
  · exact (List.pairwise_append.mp hsorted).2.2 time hmem last (List.mem_singleton.mpr rfl)
  · exact (List.mem_singleton.mp hmem).le

/-- A sorted run of times starts with its least one, or with the first behind its zeros. -/
theorem find_ne_zero {times : List ℕ} {first last : ℕ} (hfirst : times.head? = some first)
    (hlast : times.getLast? = some last) (hsorted : times.Pairwise (· ≤ ·)) :
    ∃ found, (times.find? fun time => time ≠ 0).getD 0 = found ∧ found ≤ last ∧
      (found = first ↔ first ≠ 0 ∨ last = 0) := by
  obtain ⟨rest, rfl⟩ : ∃ rest, times = first :: rest := by
    cases times with
    | nil => simp at hfirst
    | cons time rest => exact ⟨rest, by simpa using hfirst⟩
  cases hfind : (first :: rest).find? fun time => time ≠ 0 with
  | none =>
    have hzero : ∀ time ∈ first :: rest, time = 0 := by
      simpa using hfind
    have hlastZero : last = 0 := hzero last (List.mem_of_getLast? hlast)
    refine ⟨0, rfl, Nat.zero_le _, ?_⟩
    have hfirstZero : first = 0 := hzero first List.mem_cons_self
    exact ⟨fun _ => Or.inr hlastZero, fun _ => hfirstZero.symm⟩
  | some found =>
    have hfound : found ≠ 0 := by simpa using List.find?_some hfind
    have hfoundLast := le_last hlast hsorted (List.mem_of_find?_eq_some hfind)
    refine ⟨found, rfl, hfoundLast, ?_⟩
    constructor
    · intro heq
      exact Or.inl (heq ▸ hfound)
    · rintro (hne | hzero)
      · rw [List.find?_cons_of_pos (by simpa using hne)] at hfind
        exact (Option.some.inj hfind).symm
      · omega

/-- The duration reaches from the first event to the last one unless the first has the time zero
and the last a later one. -/
theorem duration_iff {rangeSize : ℕ} {lbaHistEnabled : Bool} {first last : ℕ}
    (hok : countAll events (start rangeSize lbaHistEnabled) = .ok s)
    (hfirst : (timestamps events).head? = some first)
    (hlast : (timestamps events).getLast? = some last)
    (hsorted : (timestamps events).Pairwise (· ≤ ·)) (hword : last < 2 ^ 64) :
    s.getIoStatistics.duration = last - first ↔ first ≠ 0 ∨ last = 0 := by
  obtain ⟨found, hfound, hle, hiff⟩ := find_ne_zero hfirst hlast hsorted
  obtain ⟨hstart, hend⟩ := times_of_countAll hok
  rw [times_start, List.find?_cons_of_neg (by simp), hfound] at hstart
  have hlastD : s.endTime = last := by
    rw [hend, List.getLastD_eq_getLast?, hlast, Option.getD_some]
  have hmem : first ≤ last := le_last hlast hsorted (List.mem_of_head? hfirst)
  have hduration : s.getIoStatistics.duration = last - found := by
    change sub64 s.endTime s.startTime = last - found
    rw [hstart, hlastD]
    unfold sub64
    omega
  rw [hduration, ← hiff]
  omega

/-- A read with a time. -/
def readAt (timestamp : ℕ) : ParsedEvent :=
  ⟨⟨1, timestamp⟩, some ⟨8, 8, .Read, false, 7, 1, 0, ⟨false, false, false, false, false⟩⟩,
    ⟨1, "disk", 0, ""⟩, none, []⟩

theorem exists_countAll_readAt (times : List ℕ) (lbaHistEnabled : Bool) :
    ∃ s, countAll (times.map readAt) (start 8 lbaHistEnabled) = .ok s := by
  have hvalid : (start 8 lbaHistEnabled).Valid ∧ 0 < (start 8 lbaHistEnabled).lbaHistRangeSize := by
    cases lbaHistEnabled with
    | false => exact ⟨valid_new 8, by decide⟩
    | true => exact ⟨IoStatisticsSet.valid_enableLbaHistogram (valid_new 8), by decide⟩
  refine exists_countAll hvalid.1 hvalid.2 fun event hevent => ?_
  obtain ⟨time, -, rfl⟩ := List.mem_map.mp hevent
  exact ⟨show 7 < 2 ^ 53 by decide, show 1 < 2 ^ 53 by decide, show 8 < 2 ^ 53 by decide⟩

theorem duration_iff_later : ∃ s, countAll ([3, 5, 9].map readAt) (start 8 true) = .ok s ∧
    (s.getIoStatistics.duration = 9 - 3 ↔ 3 ≠ 0 ∨ 9 = 0) := by
  obtain ⟨s, hok⟩ := exists_countAll_readAt [3, 5, 9] true
  exact ⟨s, hok, duration_iff hok rfl rfl (by decide) (by decide)⟩

/-- A trace whose first IO has the time zero. -/
theorem duration_from_zero : ∃ s, countAll ([0, 5, 9].map readAt) (start 8 false) = .ok s ∧
    s.getIoStatistics.duration = 4 ∧ s.getIoStatistics.duration ≠ 9 - 0 := by
  obtain ⟨s, hok⟩ := exists_countAll_readAt [0, 5, 9] false
  obtain ⟨hstart, hend⟩ := times_of_countAll hok
  have hduration : s.getIoStatistics.duration = 4 := by
    change sub64 s.endTime s.startTime = 4
    rw [hstart, hend]
    rfl
  exact ⟨s, hok, hduration, by omega⟩

end IoStatistics

end Octf.Analytics
