import Octf.Analytics.IoStatistics

/-! Statistics of a set of devices, which are allocated by the first IO or the first description
of a device, and their LBA histograms. -/
namespace Octf.Analytics
open Foundation Octf.Parser

/-- `proto::HistogramRange` -/
structure HistogramRange where
  (begin end' : ℕ)
  count : ℕ
  deriving DecidableEq

def Stats.getLbaHistogramEntry (s : Stats) : List HistogramRange :=
  s.lbaHitMap.entries.map fun range =>
    ⟨range.1, sub64 (add64 range.1 s.lbaHitMapRangeSize) 1, range.2⟩

/-- `proto::IoHistogram`, with the entries of the LBA histogram. -/
structure IoHistogram where
  discard : List HistogramRange
  write : List HistogramRange
  read : List HistogramRange
  total : List HistogramRange
  duration : ℕ
  deriving DecidableEq

def IoStatistics.getIoLbaHistogram (s : IoStatistics) : IoHistogram :=
  if s.lbaHistEnabled then
    { discard := (s.statistics .Discard).getLbaHistogramEntry
      write := (s.statistics .Write).getLbaHistogramEntry
      read := (s.statistics .Read).getLbaHistogramEntry
      total := s.total.getLbaHistogramEntry
      duration := sub64 s.endTime s.startTime }
  else ⟨[], [], [], [], 0⟩

/-- `IoStatisticsSet::Key`, compared by its id. -/
structure Key where
  Id : ℕ
  Size : ℕ
  Name : String
  Model : String
  deriving DecidableEq

structure IoStatisticsSet where
  /-- The statistics of the devices, by the ids of their keys. -/
  map : OrderedMap (Key × IoStatistics)
  lbaHitRangeSize : ℕ
  lbaHistEnabled : Bool

namespace IoStatisticsSet

def new (lbaHitRangeSize : ℕ) : IoStatisticsSet := ⟨.empty, lbaHitRangeSize, false⟩

def enableLbaHistogram (s : IoStatisticsSet) : IoStatisticsSet := { s with lbaHistEnabled := true }

/-- Find the statistics of a key, or allocate them. -/
def getIoStatistics (key : Key) (s : IoStatisticsSet) : (Key × IoStatistics) × IoStatisticsSet :=
  match s.map.find key.Id with
  | some entry => (entry, s)
  | none =>
    let entry := (key, IoStatistics.new s.lbaHitRangeSize)
    (entry, { s with map := s.map.emplace key.Id entry })

def count (event : ParsedEvent) (s : IoStatisticsSet) : Except Failure IoStatisticsSet := do
  let key : Key := ⟨event.device.id, 0, "", ""⟩
  let (entry, s) := s.getIoStatistics key
  let stats ← entry.2.count event
  .ok { s with map := s.map.alter key.Id fun _ => (entry.1, stats) }

def addDevice (devDesc : EventDeviceDescription) (s : IoStatisticsSet) : IoStatisticsSet :=
  let key : Key := ⟨devDesc.id, devDesc.size, devDesc.name, devDesc.model⟩
  match s.map.find key.Id with
  | some (_, stats) =>
    -- the key is replaced; the copy of the old statistics is kept
    let stats := if s.lbaHistEnabled then stats.enableLbaHistogram else stats
    { s with map := (s.map.erase key.Id).emplace key.Id (key, stats) }
  | none => (s.getIoStatistics key).2

def getIoLbaHistogramSet (s : IoStatisticsSet) : List (Key × IoHistogram) :=
  s.map.entries.map fun entry => (entry.2.1, entry.2.2.getIoLbaHistogram)

inductive Call where
  | addDevice (devDesc : EventDeviceDescription)
  | count (event : ParsedEvent)

def Call.step (s : IoStatisticsSet) : Call → Except Failure IoStatisticsSet
  | .addDevice devDesc => .ok (s.addDevice devDesc)
  | .count event => s.count event

def run (calls : List Call) (s : IoStatisticsSet) : Except Failure IoStatisticsSet :=
  calls.foldlM Call.step s

end IoStatisticsSet

end Octf.Analytics
