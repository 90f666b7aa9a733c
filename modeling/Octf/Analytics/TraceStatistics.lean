import Octf.Analytics.DeviceStatistics
import Octf.Parser.Emission

/-! The statistics of a trace: every IO of it is counted once, in the statistics of its device, and
measured by what the cache of requests reports of it. -/
namespace Octf.Analytics
open Foundation Octf.Parser

namespace ParsedIoTraceEventHandlerStatistics

/-- 10 MiB in sectors -/
def DEFAULT_LBA_HIT_MAP_RANGE_SIZE : ℕ := 20480

/-- `handleIO` and `handleDeviceDescription` -/
def call : Callback → IoStatisticsSet.Call
  | .handleIo io => .count io
  | .handleDeviceDescription devDesc => .addDevice devDesc

/-- `processEvents`, for a trace that is parsed; an exception of `count` ends it. -/
def processEvents (c : Config) (lbaHitRangeSize : ℕ) (events : List Event) :
    Except Failure IoStatisticsSet :=
  IoStatisticsSet.run ((ParsedIoTraceEventHandler.processEvents c events).callbacks.map call)
    (.new lbaHitRangeSize)

/-! ### What the statistics are about -/

/-- What the number of IOs depends on. -/
structure Submission where
  device : ℕ
  operation : IoType
  flush : Bool
  deriving DecidableEq

def submission (version : Version) (e : Event) : Option Submission :=
  match e.eventType with
  | .io src => some ⟨src.deviceId, src.operation, (version.flags src).flush⟩
  | _ => none

/-- The IOs of a trace. -/
def submissions (version : Version) (events : List Event) : List Submission :=
  events.filterMap (submission version)

/-- What the cache of requests reports of the IOs of a device. -/
def reports (c : Config) (events : List Event) (id : ℕ) : List Report :=
  let steps := (ParsedIoTraceEventHandler.schedule c events).map
    (ParsedIoTraceEventHandler.Op.step c)
  (run IoCache.Step.apply steps .start).reported.reduceOption.filter fun r => r.device = id

/-- The numbers of IOs in the statistics of a device. File events are counted as of an unknown
operation. -/
structure Summarizes (submissions : List Submission) (id : ℕ) (s : IoStatistics) : Prop where
  operation : ∀ type ≠ .UnknownIoType,
    (∀ r ∈ submissions, r.device = id → r.operation = type → r.flush = false) →
      (s.part (.operation type)).count =
        submissions.countP fun r => r.device = id ∧ r.operation = type
  all : (∀ r ∈ submissions, r.operation ≠ .UnknownIoType) →
    IoStatistics.sumOfParts .count s = submissions.countP fun r => r.device = id
  total : s.total.count =
    IoStatistics.sumOfParts .count s + (s.part (.operation .UnknownIoType)).count

/-- The errors and the distributions in the total of a device. Zero is no value of them. -/
structure Measures (reports : List Report) (s : IoStatistics) : Prop where
  errors : s.total.errors = reports.countP fun r => r.error
  latencies : s.total.latencyDistribution.count = reports.countP fun r => r.latency ≠ 0
  latency : s.total.latencyDistribution.total = (reports.map fun r => r.latency).sum % 2 ^ 64
  depths : s.total.qdDistribution.count = reports.countP fun r => r.qd ≠ 0
  depth : s.total.qdDistribution.total = (reports.map fun r => r.qd).sum % 2 ^ 64

/-! ### The parsed events of a trace -/

/-- The submission a parsed event comes from. -/
def submitted (event : ParsedEvent) : Option Submission :=
  event.io.map fun io => ⟨event.device.id, io.operation, io.flags.flush⟩

def submissionOf : Subject → Option Submission
  | .io device operation _ flags => some ⟨device, operation, flags.flush⟩
  | .file _ _ _ _ => none

variable {c : Config} {events : List Event} {id : ℕ} {s : IoStatistics}

theorem submission_eq (version : Version) (e : Event) :
    submission version e = (e.origin version).bind fun o => submissionOf o.subject := by
  unfold submission Event.origin
  cases e.eventType <;> rfl

theorem submitted_eq (event : ParsedEvent) :
    submitted event = submissionOf event.origin.subject := by
  unfold submitted ParsedEvent.origin
  cases event.io <;> rfl

theorem submitted_handled (hsub : c.subrangeEnd = 0) (events : List Event) :
    (ParsedIoTraceEventHandler.processEvents c events).handled.filterMap submitted =
      submissions c.version events := by
  have hs := ParsedIoTraceEventHandler.emitting_after hsub
    (ParsedIoTraceEventHandler.schedule c events)
  rw [ParsedIoTraceEventHandler.after_schedule,
    ParsedIoTraceEventHandler.traceEvents_schedule] at hs
  obtain ⟨out, horigins, hout⟩ := hs.origins
  rw [ParsedIoTraceEventHandler.processEvents_queue, List.map_nil, List.append_nil] at horigins
  have hevents : submissions c.version events =
      out.filterMap fun o => submissionOf o.subject := by
    rw [← horigins, List.filterMap_filterMap]
    exact congrArg (fun f => events.filterMap f) (funext fun e => submission_eq c.version e)
  have hhandled := congrArg (List.filterMap fun o : Origin => submissionOf o.subject) hout
  rw [List.filterMap_map, List.filterMap_map] at hhandled
  rw [hevents]
  refine Eq.trans ?_ hhandled
  exact congrArg (fun f => List.filterMap f _) (funext fun event => submitted_eq event)

theorem counted_map_call (callbacks : List Callback) (id : ℕ) :
    IoStatisticsSet.counted id (callbacks.map call) =
      (callbacks.filterMap Callback.io).filter fun event => event.device.id = id := by
  induction callbacks with
  | nil => rfl
  | cons callback callbacks ih =>
    cases callback with
    | handleDeviceDescription devDesc => exact ih
    | handleIo event =>
      unfold IoStatisticsSet.counted at ih ⊢
      by_cases hid : event.device.id = id <;> simpa [call, hid] using ih

/-- The counted events of a device. -/
theorem countAll_of_processEvents {rangeSize : ℕ} {set : IoStatisticsSet}
    (h : processEvents c rangeSize events = .ok set) (id : ℕ) :
    IoStatistics.countAll ((ParsedIoTraceEventHandler.processEvents c events).handled.filter
      fun event => event.device.id = id) (.new rangeSize) =
        .ok (set.statisticsOf rangeSize id) := by
  have hseparates := IoStatisticsSet.separates_run h
  rw [← hseparates.statistics id, counted_map_call]
  rfl

/-! ### The numbers of IOs -/

theorem partOf_of_submitted {event : ParsedEvent} {r : Submission} (h : submitted event = some r) :
    event.device.id = r.device ∧
      (IoStatistics.partOf (eventIo event) = .operation r.operation ∨
        IoStatistics.partOf (eventIo event) = .flush ∧ r.flush = true) := by
  obtain ⟨io, hio, rfl⟩ := Option.map_eq_some_iff.mp h
  refine ⟨rfl, ?_⟩
  unfold eventIo IoStatistics.partOf
  rw [hio, Option.getD_some]
  split_ifs with hflush
  · exact Or.inr ⟨rfl, hflush.1⟩
  · exact Or.inl rfl

theorem partOf_of_not_submitted {event : ParsedEvent} (h : submitted event = none) :
    IoStatistics.partOf (eventIo event) = .operation .UnknownIoType := by
  unfold eventIo
  rw [Option.map_eq_none_iff.mp h]
  rfl

theorem countP_submitted (handled : List ParsedEvent) (id : ℕ) (p : Part → Bool)
    (q : Submission → Bool)
    (hsubmitted : ∀ event ∈ handled, ∀ r, submitted event = some r → r.device = id →
      p (IoStatistics.partOf (eventIo event)) = q r)
    (hother : p (.operation .UnknownIoType) = false) :
    ((handled.filter fun event => event.device.id = id).countP fun event =>
        p (IoStatistics.partOf (eventIo event))) =
      (handled.filterMap submitted).countP fun r => decide (r.device = id) && q r := by
  rw [List.countP_filter, List.countP_filterMap]
  refine List.countP_congr fun event hevent => ?_
  cases hr : submitted event with
  | none => simp [partOf_of_not_submitted hr, hother]
  | some r =>
    have hdevice := (partOf_of_submitted hr).1
    by_cases hid : r.device = id
    · simp [hdevice, hid, hsubmitted event hevent r hr hid]
    · simp [hdevice, hid]

theorem sum_countP_parts (events : List ParsedEvent) :
    (events.countP fun event => IoStatistics.partOf (eventIo event) = .operation .Read) +
        (events.countP fun event => IoStatistics.partOf (eventIo event) = .operation .Write) +
        (events.countP fun event => IoStatistics.partOf (eventIo event) = .operation .Discard) +
        (events.countP fun event => IoStatistics.partOf (eventIo event) = .flush) =
      events.countP fun event =>
        decide (IoStatistics.partOf (eventIo event) ≠ .operation .UnknownIoType) := by
  induction events with
  | nil => rfl
  | cons event events ih =>
    simp only [List.countP_cons, ne_eq, decide_not] at ih ⊢
    rcases IoStatistics.partOf (eventIo event) with (_ | _ | _ | _) | _ <;> simp <;> omega

theorem summarizes_of_countAll {handled : List ParsedEvent} {rangeSize : ℕ}
    (h : IoStatistics.countAll (handled.filter fun event => event.device.id = id)
      (.new rangeSize) = .ok s) : Summarizes (handled.filterMap submitted) id s := by
  obtain ⟨htotal, hpart⟩ := IoStatistics.counts_of_countAll h
  have hzero : ∀ p, ((IoStatistics.new rangeSize).part p).count = 0 := by
    intro p
    cases p <;> rfl
  simp only [hzero, Nat.zero_add] at hpart
  have hsum : IoStatistics.sumOfParts .count s =
      (handled.filter fun event => event.device.id = id).countP fun event =>
        decide (IoStatistics.partOf (eventIo event) ≠ .operation .UnknownIoType) := by
    rw [← sum_countP_parts, ← hpart, ← hpart, ← hpart, ← hpart]
    rfl
  refine ⟨fun type htype hflush => ?_, fun hknown => ?_, ?_⟩
  · rw [hpart, countP_submitted handled id (fun p => decide (p = .operation type))
      (fun r => decide (r.operation = type)) ?_ (by simpa using Ne.symm htype)]
    · exact List.countP_congr fun r _ => by simp
    · intro event hevent r hr hid
      rcases (partOf_of_submitted hr).2 with hp | ⟨hp, htrue⟩
      · simp [hp]
      · rw [hp]
        have hne : r.operation ≠ type := by
          intro heq
          have hfalse := hflush r (List.mem_filterMap.mpr ⟨event, hevent, hr⟩) hid heq
          rw [htrue] at hfalse
          cases hfalse
        simp [hne]
  · rw [hsum, countP_submitted handled id (fun p => decide (p ≠ .operation .UnknownIoType))
      (fun _ => true) ?_ (by simp)]
    · exact List.countP_congr fun r _ => by simp
    · intro event hevent r hr _
      have hop := hknown r (List.mem_filterMap.mpr ⟨event, hevent, hr⟩)
      rcases (partOf_of_submitted hr).2 with hp | ⟨hp, -⟩ <;> simp [hp, hop]
  · rw [htotal, hsum, hpart]
    have hnew : (IoStatistics.new rangeSize).total.count = 0 := rfl
    rw [hnew, Nat.zero_add, List.length_eq_countP_add_countP
      (fun event => decide (IoStatistics.partOf (eventIo event) ≠ .operation .UnknownIoType))]
    congr 1
    exact List.countP_congr fun event _ => by simp

theorem summarizes_of_processEvents (hsub : c.subrangeEnd = 0) {rangeSize : ℕ}
    {set : IoStatisticsSet} (h : processEvents c rangeSize events = .ok set) (id : ℕ) :
    Summarizes (submissions c.version events) id (set.statisticsOf rangeSize id) := by
  rw [← submitted_handled hsub]
  exact summarizes_of_countAll (countAll_of_processEvents h id)

/-- The order of the IOs does not matter. -/
theorem Summarizes.perm {xs ys : List Submission} (h : Summarizes xs id s) (hperm : xs.Perm ys) :
    Summarizes ys id s where
  operation type htype hflush := by
    rw [← hperm.countP_eq]
    exact h.operation type htype fun r hr => hflush r (hperm.mem_iff.mp hr)
  all hknown := by
    rw [← hperm.countP_eq]
    exact h.all fun r hr => hknown r (hperm.mem_iff.mp hr)
  total := h.total

/-! ### The measures -/

theorem sum_map_submitted {handled : List ParsedEvent} (f : ParsedEvent → ℕ) (g : Report → ℕ)
    (h : ∀ event ∈ handled, f event = ((event.report).map g).getD 0) :
    ((handled.filter fun event => event.device.id = id).map f).sum =
      (((handled.filterMap ParsedEvent.report).filter fun r => r.device = id).map g).sum := by
  induction handled with
  | nil => rfl
  | cons event handled ih =>
    have hrest := ih fun event' h' => h event' (List.mem_cons_of_mem event h')
    have hfirst := h event List.mem_cons_self
    cases hio : event.io with
    | none =>
      have hreport : event.report = none := by rw [ParsedEvent.report, hio]; rfl
      rw [hreport] at hfirst
      rw [List.filterMap_cons_none hreport, ← hrest]
      by_cases hid : event.device.id = id
      · rw [List.filter_cons_of_pos (by simpa using hid), List.map_cons, List.sum_cons, hfirst]
        exact Nat.zero_add _
      · rw [List.filter_cons_of_neg (by simpa using hid)]
    | some io =>
      have hreport : event.report = some ⟨event.device.id, io.latency, io.error, io.qd⟩ := by
        rw [ParsedEvent.report, hio]
        rfl
      rw [hreport] at hfirst
      rw [List.filterMap_cons_some hreport]
      by_cases hid : event.device.id = id
      · rw [List.filter_cons_of_pos (by simpa using hid),
          List.filter_cons_of_pos (by simpa using hid), List.map_cons, List.map_cons,
          List.sum_cons, List.sum_cons, hrest, hfirst]
        rfl
      · rw [List.filter_cons_of_neg (by simpa using hid),
          List.filter_cons_of_neg (by simpa using hid), hrest]

theorem sum_map_toNat {α : Type*} (p : α → Bool) (xs : List α) :
    (xs.map fun x => (p x).toNat).sum = xs.countP p := by
  induction xs with
  | nil => rfl
  | cons x xs ih =>
    rw [List.map_cons, List.sum_cons, ih, List.countP_cons]
    cases p x <;> simp [Nat.add_comm]

/-- The cache of requests reports what the parent handler is called with. -/
theorem reports_eq (c : Config) (events : List Event) (id : ℕ) : reports c events id =
    ((ParsedIoTraceEventHandler.processEvents c events).handled.filterMap
      ParsedEvent.report).filter fun r => r.device = id := by
  have hview := ParsedIoTraceEventHandler.view_after (c := c)
    (ParsedIoTraceEventHandler.schedule c events)
  rw [ParsedIoTraceEventHandler.after_schedule] at hview
  unfold reports
  simp only [← hview]
  exact congrArg (List.filter _) (List.filterMap_map ..)

/-- What the event of a report adds to a total. -/
theorem total_eq {rangeSize : ℕ} {set : IoStatisticsSet}
    (hbounded : ∀ event ∈ (ParsedIoTraceEventHandler.processEvents c events).handled,
      IoStatistics.Bounded (eventIo event))
    (h : processEvents c rangeSize events = .ok set) (id : ℕ) (counter : Counter) (g : Report → ℕ)
    (hgrowth : ∀ event : ParsedEvent,
      IoStatistics.ioGrowth false rangeSize (eventIo event) counter =
        (event.report.map g).getD 0) :
    counter.value (set.statisticsOf rangeSize id).total =
      counter.wrap ((reports c events id).map g).sum := by
  have htotal := IoStatistics.total_of_countAll (IoStatistics.valid_new rangeSize)
    (fun event hevent => hbounded event (List.mem_of_mem_filter hevent))
    (countAll_of_processEvents h id) counter
  have hnew : counter.value (IoStatistics.new rangeSize).total = 0 := Stats.value_new ..
  rw [htotal, hnew, Nat.zero_add, reports_eq]
  exact congrArg counter.wrap (sum_map_submitted _ g fun event _ => hgrowth event)

theorem growth_measured (rangeSize : ℕ) (event : ParsedEvent) :
    let growth := IoStatistics.ioGrowth false rangeSize (eventIo event)
    growth .errors = (event.report.map fun r => r.error.toNat).getD 0 ∧
      growth (.number .latency) =
        (event.report.map fun r => (decide (r.latency ≠ 0)).toNat).getD 0 ∧
      growth (.total .latency) = (event.report.map fun r => r.latency).getD 0 ∧
      growth (.number .qd) = (event.report.map fun r => (decide (r.qd ≠ 0)).toNat).getD 0 ∧
      growth (.total .qd) = (event.report.map fun r => r.qd).getD 0 := by
  have hvalue : ∀ kind x c, IoStatistics.nonzeroGrowth kind x c =
      if x ≠ 0 then valueGrowth kind x c else 0 := by
    intro kind x c
    unfold IoStatistics.nonzeroGrowth
    split_ifs <;> rfl
  have hio : ∀ io : ParsedIo, let growth := IoStatistics.ioGrowth false rangeSize io
      growth .errors = io.error.toNat ∧
        growth (.number .latency) = (decide (io.latency ≠ 0)).toNat ∧
        growth (.total .latency) = io.latency ∧
        growth (.number .qd) = (decide (io.qd ≠ 0)).toNat ∧ growth (.total .qd) = io.qd := by
    intro io
    simp only [IoStatistics.ioGrowth, IoStatistics.recordGrowth, IoStatistics.lbaGrowth, hvalue,
      valueGrowth, errorGrowth, countGrowth, Bool.false_eq_true, false_and, if_false]
    refine ⟨by simp, ?_, ?_, ?_, ?_⟩
    · by_cases hzero : io.latency = 0 <;> simp [hzero]
    · by_cases hzero : io.latency = 0 <;> simp [hzero]
    · by_cases hzero : io.qd = 0 <;> simp [hzero]
    · by_cases hzero : io.qd = 0 <;> simp [hzero]
  have hevent := hio (eventIo event)
  unfold eventIo at hevent
  unfold eventIo ParsedEvent.report
  cases hcase : event.io <;> rw [hcase] at hevent <;> exact hevent

theorem measures_of_processEvents {rangeSize : ℕ} {set : IoStatisticsSet}
    (hbounded : ∀ event ∈ (ParsedIoTraceEventHandler.processEvents c events).handled,
      IoStatistics.Bounded (eventIo event))
    (h : processEvents c rangeSize events = .ok set) (id : ℕ) :
    Measures (reports c events id) (set.statisticsOf rangeSize id) where
  errors := by
    have heq := total_eq hbounded h id .errors _ fun event => (growth_measured _ event).1
    rw [sum_map_toNat] at heq
    exact heq
  latencies := by
    have heq := total_eq hbounded h id (.number .latency) _ fun event =>
      (growth_measured _ event).2.1
    rw [sum_map_toNat] at heq
    exact heq
  latency := total_eq hbounded h id (.total .latency) _ fun event =>
    (growth_measured _ event).2.2.1
  depths := by
    have heq := total_eq hbounded h id (.number .qd) _ fun event =>
      (growth_measured _ event).2.2.2.1
    rw [sum_map_toNat] at heq
    exact heq
  depth := total_eq hbounded h id (.total .qd) _ fun event => (growth_measured _ event).2.2.2.2

theorem exists_processEvents {rangeSize : ℕ} (hpos : 0 < rangeSize)
    (hbounded : ∀ event ∈ (ParsedIoTraceEventHandler.processEvents c events).handled,
      IoStatistics.Bounded (eventIo event)) : ∃ set,
        processEvents c rangeSize events = .ok set := by
  refine IoStatisticsSet.exists_run_of_countAll fun id => ?_
  rw [counted_map_call]
  exact IoStatistics.exists_countAll (IoStatistics.valid_new rangeSize) hpos fun event hevent =>
    hbounded event (List.mem_of_mem_filter hevent)

/-- Every IO of a trace is counted once, in the statistics of its device. They are computed when
the values of the parsed events are bounded, and then they measure what the cache reports. -/
theorem trace_statistics (c : Config) (hsub : c.subrangeEnd = 0) (events : List Event) :
    let rangeSize := DEFAULT_LBA_HIT_MAP_RANGE_SIZE
    (∀ set, processEvents c rangeSize events = .ok set → ∀ id,
      Summarizes (submissions c.version events) id (set.statisticsOf rangeSize id)) ∧
    ((∀ event ∈ (ParsedIoTraceEventHandler.processEvents c events).handled,
        IoStatistics.Bounded (eventIo event)) →
      ∃ set, processEvents c rangeSize events = .ok set ∧ ∀ id,
        Measures (reports c events id) (set.statisticsOf rangeSize id)) := by
  intro rangeSize
  refine ⟨fun set hset id => summarizes_of_processEvents hsub hset id, fun hbounded => ?_⟩
  have hpos : 0 < rangeSize := by decide
  obtain ⟨set, hset⟩ := exists_processEvents hpos hbounded
  exact ⟨set, hset, measures_of_processEvents hbounded hset⟩

/-- A read that is completed and one that is not. -/
def readEvents : List Event :=
  [⟨⟨1, 5⟩, .io (ParsedIoTraceEventHandler.readOf 7)⟩,
    ⟨⟨2, 6⟩, .io (ParsedIoTraceEventHandler.readOf 8)⟩,
    ⟨⟨3, 9⟩, .ioCompletion (ParsedIoTraceEventHandler.completionOf 7)⟩]

theorem trace_statistics_readEvents : ∃ set,
    processEvents ParsedIoTraceEventHandler.plain DEFAULT_LBA_HIT_MAP_RANGE_SIZE readEvents =
      .ok set ∧
    ∀ id, Measures (reports ParsedIoTraceEventHandler.plain readEvents id)
      (set.statisticsOf DEFAULT_LBA_HIT_MAP_RANGE_SIZE id) := by
  have hbounded : ∀ event ∈ (ParsedIoTraceEventHandler.processEvents
      ParsedIoTraceEventHandler.plain readEvents).handled, (eventIo event).latency < 2 ^ 53 ∧
        (eventIo event).qd < 2 ^ 53 ∧ (eventIo event).len < 2 ^ 53 := by decide
  exact (trace_statistics ParsedIoTraceEventHandler.plain rfl readEvents).2 fun event hevent =>
    ⟨(hbounded event hevent).1, (hbounded event hevent).2.1, (hbounded event hevent).2.2⟩

end ParsedIoTraceEventHandlerStatistics

end Octf.Analytics
