import Octf.Analytics.Distribution
import Octf.Analytics.WorksetCalculator
import Octf.Foundation.OrderedMap
import Octf.Parser.ParsedIoTraceEventHandler

/-! Statistics of the IO of one device: every event is counted in the record of its operation or
of the flushes, and in the record of the total. Counts of events are not bounded here. -/
namespace Octf.Analytics
open Foundation Octf.Parser

/-- `IoStatistics::Stats` -/
structure Stats where
  sizeDistribution : Distribution
  count : ℕ
  latencyDistribution : Distribution
  qdDistribution : Distribution
  errors : ℕ
  wc : WorksetCalculator
  /-- The hits of the ranges, by the first LBA of the range. -/
  lbaHitMap : OrderedMap ℕ
  lbaHitMapRangeSize : ℕ

/-- The distributions of a record. -/
inductive Kind where
  | size
  | latency
  | qd
  deriving DecidableEq

namespace Stats

def new (lbaHitMapRangeSize : ℕ) : Stats where
  sizeDistribution := .new "sector" 256 2
  count := 0
  latencyDistribution := .new "ns" 1 2
  qdDistribution := .new "request" 128 2
  errors := 0
  wc := .new
  lbaHitMap := .empty
  lbaHitMapRangeSize := lbaHitMapRangeSize

def distribution (kind : Kind) (s : Stats) : Distribution :=
  match kind with
  | .size => s.sizeDistribution
  | .latency => s.latencyDistribution
  | .qd => s.qdDistribution

def setDistribution (kind : Kind) (d : Distribution) (s : Stats) : Stats :=
  match kind with
  | .size => { s with sizeDistribution := d }
  | .latency => { s with latencyDistribution := d }
  | .qd => { s with qdDistribution := d }

/-- `lbaHitMap[rangeToUpdate]++` -/
def hit (rangeToUpdate : ℕ) (s : Stats) : Stats :=
  { s with lbaHitMap := s.lbaHitMap.alter rangeToUpdate fun hits => hits.getD 0 + 1 }

def updateWc (op : WorksetCalculator.Op) (s : Stats) : Stats :=
  { s with wc := WorksetCalculator.step op s.wc }

end Stats

structure IoStatistics where
  /-- The records of the operations. -/
  statistics : IoType → Stats
  total : Stats
  flush : Stats
  lbaHistRangeSize : ℕ
  startTime : ℕ
  endTime : ℕ
  lbaHistEnabled : Bool

/-- The records an IO can belong to. -/
inductive Part where
  | operation (type : IoType)
  | flush
  deriving DecidableEq

/-- The IO of an event that has none. -/
def emptyIo : ParsedIo :=
  ⟨0, 0, .UnknownIoType, false, 0, 0, 0, ⟨false, false, false, false, false⟩⟩

/-- `event.io()` -/
def eventIo (event : ParsedEvent) : ParsedIo := event.io.getD emptyIo

namespace IoStatistics

def new (lbaHitMapRangeSize : ℕ) : IoStatistics where
  statistics _ := .new lbaHitMapRangeSize
  total := .new lbaHitMapRangeSize
  flush := .new lbaHitMapRangeSize
  lbaHistRangeSize := lbaHitMapRangeSize
  startTime := 0
  endTime := 0
  lbaHistEnabled := false

def part (s : IoStatistics) : Part → Stats
  | .operation type => s.statistics type
  | .flush => s.flush

def setPart (part : Part) (stats : Stats) (s : IoStatistics) : IoStatistics :=
  match part with
  | .operation type => { s with statistics := Function.update s.statistics type stats }
  | .flush => { s with flush := stats }

/-- A flush without data is a sync request. -/
def partOf (io : ParsedIo) : Part :=
  if io.flags.flush = true ∧ io.len = 0 then .flush else .operation io.operation

/-! ### The parts of `count`

Each takes the record the IO belongs to and the record of the total. -/

/-- The beginnings of the ranges an IO spans. -/
def spannedRanges (rangeSize : ℕ) (io : ParsedIo) : List ℕ :=
  let ioBeginRangeStart := mul64 (io.lba / rangeSize) rangeSize
  let ioEndRangeStart := mul64 (sub64 (add64 io.lba io.len) 1 / rangeSize) rangeSize
  let rangeSpan := add64 (sub64 ioEndRangeStart ioBeginRangeStart / rangeSize) 1
  (List.range rangeSpan).map fun range => add64 (mul64 range rangeSize) ioBeginRangeStart

/-- Update LBA hit maps. -/
def countLbaHits (enabled : Bool) (rangeSize : ℕ) (io : ParsedIo) (records : Stats × Stats) :
    Except Failure (Stats × Stats) :=
  if enabled = true ∧ io.len ≠ 0 then
    if rangeSize = 0 then .error .divisionByZero
    else
      .ok ((spannedRanges rangeSize io).foldl (fun records rangeToUpdate =>
        (records.1.hit rangeToUpdate, records.2.hit rangeToUpdate)) records)
  else .ok records

/-- Update a distribution; a value of zero is not counted. -/
def countValue (kind : Kind) (value : ℕ) (records : Stats × Stats) :
    Except Failure (Stats × Stats) :=
  if value ≠ 0 then do
    let total ← (records.2.distribution kind).add value
    let stats ← (records.1.distribution kind).add value
    .ok (records.1.setDistribution kind stats, records.2.setDistribution kind total)
  else .ok records

def countError (error : Bool) (records : Stats × Stats) : Stats × Stats :=
  if error then
    ({ records.1 with errors := records.1.errors + 1 },
      { records.2 with errors := records.2.errors + 1 })
  else records

/-- The hits, the distributions and the errors. -/
def countRecords (enabled : Bool) (rangeSize : ℕ) (io : ParsedIo) (records : Stats × Stats) :
    Except Failure (Stats × Stats) := do
  let records ← countLbaHits enabled rangeSize io records
  let records ← countValue .latency io.latency records
  let records ← countValue .qd io.qd records
  countValue .size io.len (countError io.error records)

/-- Update the working sets: what is discarded leaves those of the other operations. -/
def updateWorksets (io : ParsedIo) (s : IoStatistics) : IoStatistics :=
  if io.len = 0 then s
  else if io.operation = .Discard then
    { s with
      statistics := fun type =>
        if type = .Discard then (s.statistics type).updateWc (.insertRange io.lba io.len)
        else (s.statistics type).updateWc (.removeRange io.lba io.len)
      total := s.total.updateWc (.removeRange io.lba io.len) }
  else
    { s with
      statistics := Function.update s.statistics io.operation
        ((s.statistics io.operation).updateWc (.insertRange io.lba io.len))
      total := s.total.updateWc (.insertRange io.lba io.len) }

/-- Put the records back, with the IO counted. -/
def store (io : ParsedIo) (records : Stats × Stats) (s : IoStatistics) : IoStatistics :=
  let s := ({ s with total := records.2 }.setPart (partOf io) records.1).updateWorksets io
  let stats := s.part (partOf io)
  { s with total := { s.total with count := s.total.count + 1 } }.setPart (partOf io)
    { stats with count := stats.count + 1 }

def count (event : ParsedEvent) (s : IoStatistics) : Except Failure IoStatistics := do
  let io := eventIo event
  let records ← countRecords s.lbaHistEnabled s.lbaHistRangeSize io (s.part (partOf io), s.total)
  let s := s.store io records
  .ok { s with
    startTime := if s.startTime = 0 then event.header.timestamp else s.startTime
    endTime := event.header.timestamp }

def enableLbaHistogram (s : IoStatistics) : IoStatistics := { s with lbaHistEnabled := true }

end IoStatistics

end Octf.Analytics
