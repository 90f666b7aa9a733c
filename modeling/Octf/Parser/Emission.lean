import Mathlib.Algebra.Ring.Nat
import Octf.Parser.ExtensionReplay
import Octf.Parser.IdMapping

/-! Every IO and every file event of a trace reaches the parent handler exactly once, in the order
of the trace and with consecutive sequence ids, whichever way it leaves the queue. -/
namespace Octf.Parser
open Foundation

/-- What a parsed event keeps of its trace event, besides the time. -/
inductive Subject where
  | io (device : ℕ) (operation : IoType) (writeHint : ℕ) (flags : Flags)
  | file (partition id : ℕ) (eventType : FsEventType) (creationDate : Timestamp)
  deriving DecidableEq

structure Origin where
  timestamp : ℕ
  subject : Subject
  deriving DecidableEq

/-- Seen from a later start of time; what is earlier counts as the start. -/
def Origin.since (start : ℕ) (o : Origin) : Origin := { o with timestamp := o.timestamp - start }

/-- The origin of the IOs and the file events of a trace. -/
def Event.origin (version : Version) (e : Event) : Option Origin :=
  match e.eventType with
  | .io src => some ⟨e.header.timestamp,
      .io src.deviceId src.operation src.writeHint (version.flags src)⟩
  | .filesystemFileEvent src => some ⟨e.header.timestamp,
      .file src.fileId.partitionId src.fileId.id src.fsEventType src.fileId.creationDate⟩
  | _ => none

def ParsedEvent.origin (event : ParsedEvent) : Origin where
  timestamp := event.header.timestamp
  subject :=
    match event.io with
    | some io => .io event.device.id io.operation io.writeHint io.flags
    | none =>
      let file := event.file.getD .empty
      .file event.device.partition file.id file.eventType file.creationDate

/-- The first time stamp of a trace other than zero, apart from device descriptions. -/
def startTime (events : List Event) : ℕ :=
  match events.find? fun e => !e.isDescription && e.header.timestamp != 0 with
  | some e => e.header.timestamp
  | none => 0

namespace ParsedIoTraceEventHandler

/-- The event of the trace that a step is. -/
def Op.traceEvent : Op → Option Event
  | .event e => some e
  | .pushOut => none

/-- What the queue holds and the parent handler has got come from these events of the trace. -/
structure Emitting (c : Config) (events : List Event) (s : ParsedIoTraceEventHandler) : Prop where
  consistent : s.view.Consistent
  timestampOffset : s.timestampOffset = startTime events
  origins : ∃ out, events.filterMap (Event.origin c.version) =
      out ++ s.queue.map ParsedEvent.origin ∧
    s.handled.map ParsedEvent.origin = out.map (Origin.since s.timestampOffset)
  sids : s.handled.map (fun event => event.header.sid) =
    (List.range s.handled.length).map fun k => (k + 1) % 2 ^ 64
  refSid : s.refSid = s.handled.length % 2 ^ 64

variable {c : Config} {s : ParsedIoTraceEventHandler}

/-! ### What an event does to the queue -/

theorem noteTimestamp_queue (e : Event) : (s.noteTimestamp e).queue = s.queue := by
  unfold noteTimestamp
  split_ifs
  · split <;> rfl
  · rfl

/-- Replacing an event by one of the same origin. -/
theorem origins_update {pointer : ℕ} {event event' : ParsedEvent}
    (hcached : s.cached pointer = some event) (horigin : event'.origin = event.origin) :
    (s.update pointer event').queue.map ParsedEvent.origin =
      s.queue.map ParsedEvent.origin := by
  unfold cached at hcached
  split_ifs at hcached with hpopped
  simp only [update, hpopped, if_true]
  rw [List.map_set, horigin]
  apply List.ext_getElem?
  intro i
  rw [List.getElem?_set]
  split_ifs with heq hlt
  · subst heq
    rw [List.getElem?_map, hcached]
    rfl
  · subst heq
    exact (List.getElem?_eq_none (by omega)).symm
  · rfl

theorem origins_acceptIo (hsub : c.subrangeEnd = 0) (header : EventHeader) (src : EventIo) :
    (s.acceptIo c header src).queue.map ParsedEvent.origin = s.queue.map ParsedEvent.origin ++
      (Event.origin c.version ⟨header, .io src⟩).toList := by
  simp only [acceptIo, inside hsub, Bool.false_eq_true, if_false, addMapping]
  split_ifs
  all_goals simp [emplace, ParsedEvent.origin, Event.origin]

theorem origins_acceptIoCompletion (header : EventHeader) (cmpl : EventIoCompletion) :
    (s.acceptIoCompletion header cmpl).queue.map ParsedEvent.origin =
      s.queue.map ParsedEvent.origin := by
  unfold acceptIoCompletion
  cases hfound : s.getCachedEventById cmpl.refId with
  | none => rfl
  | some found =>
    obtain ⟨pointer, event⟩ := found
    have hcached := cached_of_getCachedEventById hfound
    have hqueue : (s.delMapping event).2.queue = s.queue := by
      unfold delMapping
      split_ifs <;> rfl
    have hwrite : ∀ event', event'.origin = event.origin →
        ((s.delMapping event).2.update pointer event').queue.map ParsedEvent.origin =
          s.queue.map ParsedEvent.origin := by
      intro event' horigin
      rw [origins_update ((cached_delMapping event pointer).trans hcached) horigin, hqueue]
    have horigin : (s.delMapping event).1.origin = event.origin := by
      unfold delMapping
      split_ifs <;> rfl
    by_cases htime : event.header.timestamp ≤ header.timestamp
    · simp only [htime, if_true]
      cases hio : (s.delMapping event).1.io with
      | none => simp only [hqueue]
      | some io =>
        have hkept : ∀ io' : ParsedIo, io'.operation = io.operation →
            io'.writeHint = io.writeHint → io'.flags = io.flags →
            ParsedEvent.origin { (s.delMapping event).1 with io := some io' } = event.origin := by
          intro io' hoperation hhint hflags
          rw [← horigin]
          simp only [ParsedEvent.origin, hio, hoperation, hhint, hflags]
        simp only
        split_ifs
        all_goals exact hwrite _ (hkept _ rfl rfl rfl)
    · simp only [htime, if_false]
      exact hwrite _ horigin

/-- Metadata is added to IOs only. -/
theorem origins_acceptFilesystemMeta (hs : s.view.Consistent) (src : EventIoFilesystemMeta) :
    (s.acceptFilesystemMeta c src).queue.map ParsedEvent.origin =
      s.queue.map ParsedEvent.origin := by
  unfold acceptFilesystemMeta
  cases hfound : s.getCachedEventById (c.version.metaRef src) with
  | none => rfl
  | some found =>
    obtain ⟨pointer, event⟩ := found
    have hcached := cached_of_getCachedEventById hfound
    obtain ⟨-, event', hcached', hio, -⟩ :=
      mappingLive_of_consistent hs _ _ (idMapping_of_getCachedEventById hfound)
    obtain rfl : event = event' := Option.some.inj (hcached.symm.trans hcached')
    obtain ⟨io, hio⟩ := Option.isSome_iff_exists.mp hio
    have hwrite : ∀ file partition, (s.update pointer { event with
        file := some file, device := { event.device with partition := partition } }).queue.map
          ParsedEvent.origin = s.queue.map ParsedEvent.origin := by
      intro file partition
      apply origins_update hcached
      simp only [ParsedEvent.origin, hio]
    simp only
    split_ifs
    · exact hwrite _ _
    · simp only [touchDevice_queue]
      exact hwrite _ _
    · exact hwrite _ _
    · simp only [touchDevice_queue]
      exact hwrite _ _

theorem origins_acceptFilesystemFileEvent (header : EventHeader)
    (src : EventIoFilesystemFileEvent) :
    (s.acceptFilesystemFileEvent c header src).queue.map ParsedEvent.origin =
      s.queue.map ParsedEvent.origin ++
        (Event.origin c.version ⟨header, .filesystemFileEvent src⟩).toList := by
  simp only [acceptFilesystemFileEvent]
  split_ifs
  all_goals simp [emplace, ParsedEvent.origin, Event.origin]

/-- An event of the trace is queued if it is to be emitted; it changes no other origin. -/
theorem origins_acceptEvent (hsub : c.subrangeEnd = 0) (hs : s.view.Consistent) (e : Event) :
    (s.acceptEvent c e).queue.map ParsedEvent.origin =
      s.queue.map ParsedEvent.origin ++ (e.origin c.version).toList := by
  have hnote := noteTimestamp_queue (s := s) e
  have hconsistent : (s.noteTimestamp e).view.Consistent := by rwa [view_noteTimestamp]
  have hsame : s.queue.map ParsedEvent.origin = s.queue.map ParsedEvent.origin ++
      (none : Option Origin).toList := (List.append_nil _).symm
  obtain ⟨header, type⟩ := e
  cases type with
  | io src =>
    rw [acceptEvent, origins_acceptIo hsub, hnote]
  | deviceDescription device =>
    simp only [acceptEvent, acceptDeviceDescription, hnote]
    exact hsame
  | filesystemMeta src =>
    rw [acceptEvent, origins_acceptFilesystemMeta hconsistent, hnote]
    exact hsame
  | ioCompletion cmpl =>
    simp only [acceptEvent, inside hsub, Bool.false_eq_true, if_false]
    rw [origins_acceptIoCompletion, hnote]
    exact hsame
  | filesystemFileName src =>
    simp only [acceptEvent, acceptFilesystemFileName]
    split_ifs
    · rw [hnote]
      exact hsame
    · rw [hnote]
      exact hsame
  | filesystemFileEvent src =>
    rw [acceptEvent, origins_acceptFilesystemFileEvent, hnote]
  | notSet =>
    rw [acceptEvent, hnote]
    exact hsame

/-! ### The counters -/

/-- What numbers the events and sets their times. -/
def clock (s : ParsedIoTraceEventHandler) : ℕ × ℕ := (s.refSid, s.timestampOffset)

theorem clock_touchDevice (id : ℕ) : (s.touchDevice id).clock = s.clock := by
  unfold touchDevice
  split_ifs <;> rfl

theorem clock_update (pointer : ℕ) (event : ParsedEvent) :
    (s.update pointer event).clock = s.clock := by
  unfold update
  split_ifs <;> rfl

theorem clock_delMapping (event : ParsedEvent) : (s.delMapping event).2.clock = s.clock := by
  unfold delMapping
  split_ifs <;> rfl

theorem clock_acceptIo (header : EventHeader) (src : EventIo) :
    (s.acceptIo c header src).clock = s.clock := by
  simp only [acceptIo, addMapping]
  split_ifs
  · rfl
  · exact clock_touchDevice src.deviceId
  · exact clock_touchDevice src.deviceId

theorem clock_acceptIoCompletion (header : EventHeader) (cmpl : EventIoCompletion) :
    (s.acceptIoCompletion header cmpl).clock = s.clock := by
  unfold acceptIoCompletion
  split
  · rfl
  · next pointer event _ =>
    have hwrite : ∀ event', ((s.delMapping event).2.update pointer event').clock = s.clock :=
      fun event' => (clock_update _ _).trans (clock_delMapping event)
    by_cases htime : event.header.timestamp ≤ header.timestamp
    · simp only [htime, if_true]
      cases (s.delMapping event).1.io with
      | none => exact clock_delMapping event
      | some io =>
        simp only
        split_ifs
        all_goals exact hwrite _
    · simp only [htime, if_false]
      exact hwrite _

theorem clock_acceptFilesystemMeta (src : EventIoFilesystemMeta) :
    (s.acceptFilesystemMeta c src).clock = s.clock := by
  simp only [acceptFilesystemMeta]
  split
  · rfl
  · split_ifs
    · exact clock_update _ _
    · exact (clock_touchDevice _).trans (clock_update _ _)
    · exact clock_update _ _
    · exact (clock_touchDevice _).trans (clock_update _ _)

theorem clock_acceptFilesystemFileEvent (header : EventHeader)
    (src : EventIoFilesystemFileEvent) :
    (s.acceptFilesystemFileEvent c header src).clock = s.clock := by
  simp only [acceptFilesystemFileEvent]
  split_ifs
  all_goals exact clock_touchDevice _

/-- Only the first time stamp of a trace touches the counters. -/
theorem clock_acceptEvent (e : Event) :
    (s.acceptEvent c e).clock = (s.refSid, (s.noteTimestamp e).timestampOffset) := by
  have hnote : (s.noteTimestamp e).clock = (s.refSid, (s.noteTimestamp e).timestampOffset) := by
    unfold noteTimestamp
    split_ifs
    · split <;> rfl
    · rfl
  obtain ⟨header, type⟩ := e
  cases type with
  | io src => exact (clock_acceptIo _ _).trans hnote
  | deviceDescription device => exact hnote
  | filesystemMeta src => exact (clock_acceptFilesystemMeta _).trans hnote
  | ioCompletion cmpl =>
    simp only [acceptEvent]
    split_ifs
    · exact hnote
    · exact (clock_acceptIoCompletion _ _).trans hnote
  | filesystemFileName src =>
    simp only [acceptEvent, acceptFilesystemFileName]
    split_ifs
    · exact hnote
    · exact hnote
  | filesystemFileEvent src => exact (clock_acceptFilesystemFileEvent _ _).trans hnote
  | notSet => exact hnote

/-! ### The start of time -/

theorem startTime_append (events : List Event) (e : Event) : startTime (events ++ [e]) =
    if startTime events = 0 then (if e.isDescription then 0 else e.header.timestamp)
    else startTime events := by
  unfold startTime
  rw [List.find?_append]
  cases hfind : events.find? fun e => !e.isDescription && e.header.timestamp != 0 with
  | some first =>
    have hfirst := List.find?_some hfind
    simp only [Bool.and_eq_true, bne_iff_ne] at hfirst
    simp [hfirst.2]
  | none =>
    rw [Option.none_or, List.find?_singleton]
    by_cases hdescription : e.isDescription
    · simp [hdescription]
    · by_cases htime : e.header.timestamp = 0
      · simp [htime]
      · simp [hdescription, htime]

/-- Before the start of time everything has happened at zero. -/
theorem timestamp_of_startTime {events : List Event} {version : Version} {o : Origin}
    (hstart : startTime events = 0) (ho : o ∈ events.filterMap (Event.origin version)) :
    o.timestamp = 0 := by
  obtain ⟨e, he, horigin⟩ := List.mem_filterMap.mp ho
  have htime : e.isDescription = true ∨ e.header.timestamp = 0 := by
    unfold startTime at hstart
    split at hstart
    · next first hfind =>
      have hfirst := List.find?_some hfind
      simp [hstart] at hfirst
    · next hfind =>
      have hnone := List.find?_eq_none.mp hfind e he
      by_contra hboth
      push Not at hboth
      exact hnone (by simpa using hboth)
  unfold Event.origin at horigin
  unfold Event.isDescription at htime
  split at horigin
  · next heq =>
    simp only [heq, Bool.false_eq_true, false_or] at htime
    cases horigin
    exact htime
  · next heq =>
    simp only [heq, Bool.false_eq_true, false_or] at htime
    cases horigin
    exact htime
  · cases horigin

theorem noteTimestamp_timestampOffset (e : Event) : (s.noteTimestamp e).timestampOffset =
    if s.timestampOffset = 0 then (if e.isDescription then 0 else e.header.timestamp)
    else s.timestampOffset := by
  unfold noteTimestamp Event.isDescription
  by_cases hoffset : s.timestampOffset = 0
  · simp only [hoffset, if_true]
    split <;> simp_all
  · simp only [hoffset, if_false]

/-! ### Runs -/

theorem emitting_init (c : Config) : Emitting c [] init where
  consistent := IoCache.consistent_start
  timestampOffset := rfl
  origins := ⟨[], rfl, rfl⟩
  sids := rfl
  refSid := rfl

theorem emitting_acceptEvent {events : List Event} (hsub : c.subrangeEnd = 0)
    (hs : Emitting c events s) (e : Event) : Emitting c (events ++ [e]) (s.acceptEvent c e) := by
  obtain ⟨hrefSid, hoffset⟩ := Prod.mk.inj (clock_acceptEvent (c := c) (s := s) e)
  have hstart : (s.acceptEvent c e).timestampOffset = startTime (events ++ [e]) := by
    rw [hoffset, noteTimestamp_timestampOffset, startTime_append, hs.timestampOffset]
  have hhandled : (s.acceptEvent c e).handled = s.handled := by
    have hcallbacks := (Prod.mk.inj (output_acceptEvent (c := c) (s := s) e)).1
    have hquiet : (Event.announce e).filterMap Callback.io = [] := by
      unfold Event.announce
      split <;> rfl
    rw [handled, hcallbacks, List.filterMap_append, hquiet, List.append_nil]
    rfl
  obtain ⟨out, horigins, hout⟩ := hs.origins
  constructor
  · rw [view_acceptEvent]
    exact hs.consistent.apply _
  · exact hstart
  · refine ⟨out, ?_, ?_⟩
    · rw [origins_acceptEvent hsub hs.consistent, List.filterMap_append, horigins,
        List.append_assoc]
      cases horigin : e.origin c.version <;> simp [horigin]
    · rw [hhandled, hout]
      by_cases hzero : s.timestampOffset = 0
      · -- what has been pushed out so far has happened at zero
        have hearly : ∀ o ∈ out, o.timestamp = 0 := by
          intro o ho
          apply timestamp_of_startTime (hs.timestampOffset.symm.trans hzero)
          rw [horigins]
          exact List.mem_append_left _ ho
        apply List.map_congr_left
        intro o ho
        simp only [Origin.since, hearly o ho, Nat.zero_sub]
      · rw [hoffset, noteTimestamp_timestampOffset, if_neg hzero]
  · rw [hhandled, hs.sids]
  · rw [hrefSid, hhandled, hs.refSid]

/-- The event in front reaches the parent handler with the next sequence id. -/
theorem pushOutEvent_emits {event : ParsedEvent} {queue : List ParsedEvent}
    (hqueue : s.queue = event :: queue) : ∃ out : ParsedEvent,
    (s.pushOutEvent c).handled = s.handled ++ [out] ∧
      out.origin = event.origin.since s.timestampOffset ∧
      out.header.sid = add64 s.refSid 1 ∧ (s.pushOutEvent c).queue = queue ∧
      (s.pushOutEvent c).clock = (add64 s.refSid 1, s.timestampOffset) := by
  have htime : ∀ timestamp : ℕ, (if s.timestampOffset < timestamp then
      timestamp - s.timestampOffset else 0) = timestamp - s.timestampOffset := by
    intro timestamp
    split_ifs
    · rfl
    · omega
  unfold pushOutEvent
  rw [hqueue]
  cases hio : event.io with
  | none =>
    simp only [delMapping, hio, Option.isSome_none, Bool.false_eq_true, if_false]
    refine ⟨_, List.filterMap_append, ?_, rfl, trivial, rfl⟩
    simp only [ParsedEvent.origin, Origin.since, hio, Option.map_none, htime]
    cases event.file <;> rfl
  | some io =>
    simp only [delMapping, hio, Option.isSome_some, if_true]
    refine ⟨_, List.filterMap_append, ?_, rfl, trivial, rfl⟩
    simp only [ParsedEvent.origin, Origin.since, hio, Option.map_some, htime]

theorem emitting_pushOutEvent {events : List Event} (hs : Emitting c events s) :
    Emitting c events (s.pushOutEvent c) := by
  cases hqueue : s.queue with
  | nil => simpa only [pushOutEvent, hqueue] using hs
  | cons event queue =>
    obtain ⟨event', hhandled, horigin, hsid, hrest, hclock⟩ := pushOutEvent_emits (c := c) hqueue
    obtain ⟨hrefSid, hoffset⟩ := Prod.mk.inj hclock
    obtain ⟨out, horigins, hout⟩ := hs.origins
    have hnext : add64 s.refSid 1 = (s.handled.length + 1) % 2 ^ 64 := by
      rw [add64, hs.refSid, Nat.mod_add_mod]
    constructor
    · rw [view_pushOutEvent]
      exact hs.consistent.pushOut
    · exact hoffset.trans hs.timestampOffset
    · refine ⟨out ++ [event.origin], ?_, ?_⟩
      · rw [horigins, hqueue, hrest, List.append_assoc]
        rfl
      · rw [hhandled, hoffset, List.map_append, List.map_append, hout, List.map_singleton, horigin]
        rfl
    · rw [hhandled, List.map_append, hs.sids, List.length_append, List.length_singleton,
        List.range_succ, List.map_append, List.map_singleton, List.map_singleton, hsid, hnext]
    · rw [hrefSid, hnext, hhandled, List.length_append, List.length_singleton]

theorem emitting_after (hsub : c.subrangeEnd = 0) (ops : List Op) :
    Emitting c (ops.filterMap Op.traceEvent) (after c ops) := by
  induction ops using List.reverseRecOn with
  | nil => exact emitting_init c
  | append_singleton ops op ih =>
    rw [after_append, List.filterMap_append]
    cases op with
    | event e => exact emitting_acceptEvent hsub ih e
    | pushOut =>
      have hnone : [Op.pushOut].filterMap Op.traceEvent = [] := rfl
      rw [hnone, List.append_nil]
      exact emitting_pushOutEvent ih

/-! ### The events of a schedule -/

theorem traceEvents_completedOps (rounds : ℕ) (s : ParsedIoTraceEventHandler) :
    (s.completedOps c rounds).filterMap Op.traceEvent = [] := by
  induction rounds generalizing s with
  | zero => rfl
  | succ rounds ih =>
    unfold completedOps
    split
    · rfl
    · split_ifs
      · exact ih _
      · rfl

theorem traceEvents_restOps (isFinished : Bool) (rounds : ℕ) (s : ParsedIoTraceEventHandler) :
    (s.restOps c isFinished rounds).filterMap Op.traceEvent = [] := by
  induction rounds generalizing s with
  | zero => rfl
  | succ rounds ih =>
    unfold restOps
    split
    · rfl
    · simp only
      split_ifs
      · rfl
      · exact ih _

theorem traceEvents_flushOps (isFinished : Bool) (s : ParsedIoTraceEventHandler) :
    (s.flushOps c isFinished).filterMap Op.traceEvent = [] := by
  simp only [flushOps, List.filterMap_append, traceEvents_completedOps, List.nil_append]
  split_ifs
  · rfl
  · exact traceEvents_restOps _ _ _

theorem traceEvents_eventsOps (events : List Event) (s : ParsedIoTraceEventHandler) :
    (s.eventsOps c events).filterMap Op.traceEvent = events := by
  induction events generalizing s with
  | nil => rfl
  | cons e events ih =>
    have hflush : (if flushesAfter c e then (s.acceptEvent c e).flushOps c events.isEmpty
        else []).filterMap Op.traceEvent = [] := by
      split_ifs
      · exact traceEvents_flushOps _ _
      · rfl
    rw [eventsOps, List.filterMap_append, eventOps, List.filterMap_cons, hflush, ih]
    rfl

/-- The steps of a trace take every event of it once and in order. -/
theorem traceEvents_schedule (events : List Event) :
    (schedule c events).filterMap Op.traceEvent = events := by
  rw [schedule, List.filterMap_append, traceEvents_eventsOps, traceEvents_flushOps,
    List.append_nil]

theorem range_sids {n : ℕ} (hn : n < 2 ^ 64) :
    (List.range n).map (fun k => (k + 1) % 2 ^ 64) = List.range' 1 n := by
  rw [List.range'_eq_map_range]
  apply List.map_congr_left
  intro k hk
  have hlt := List.mem_range.mp hk
  rw [Nat.mod_eq_of_lt (by omega), Nat.add_comm]

/-- Once a trace has been parsed, the parent handler has got every IO and every file event of it
exactly once, in order, numbered from one on in 64 bits, and nothing waits any more. -/
theorem processEvents_emits (c : Config) (hsub : c.subrangeEnd = 0) (events : List Event) :
    let s := processEvents c events
    s.handled.map ParsedEvent.origin =
        (events.filterMap (Event.origin c.version)).map (Origin.since (startTime events)) ∧
      s.handled.map (fun event => event.header.sid) =
        (List.range s.handled.length).map (fun k => (k + 1) % 2 ^ 64) ∧
      (s.handled.length < 2 ^ 64 →
        s.handled.map (fun event => event.header.sid) = List.range' 1 s.handled.length) ∧
      s.queue = [] ∧ ∀ id, s.idMapping id = none := by
  intro s
  have hqueue : s.queue = [] := processEvents_queue events
  have hs := emitting_after hsub (schedule c events)
  rw [after_schedule, traceEvents_schedule] at hs
  obtain ⟨out, horigins, hout⟩ := hs.origins
  rw [processEvents_queue, List.map_nil, List.append_nil] at horigins
  refine ⟨?_, hs.sids, ?_, hqueue, ?_⟩
  · rw [horigins, hout, hs.timestampOffset]
  · intro hlt
    rw [hs.sids, range_sids hlt]
  · intro id
    cases hid : s.idMapping id with
    | none => rfl
    | some pointer =>
      obtain ⟨-, event, hcached, -⟩ := mappingLive_of_consistent hs.consistent id pointer hid
      simp [cached, processEvents_queue] at hcached

theorem processEvents_emits_small :
    (processEvents plain [⟨⟨1, 5⟩, .io (readOf 7)⟩, ⟨⟨2, 8⟩, .io (readOf 0)⟩]).handled.map
        (fun event => event.header.sid) = [1, 2] := by
  have hlength : (processEvents plain [⟨⟨1, 5⟩, .io (readOf 7)⟩,
      ⟨⟨2, 8⟩, .io (readOf 0)⟩]).handled.length = 2 := by decide
  rw [(processEvents_emits plain rfl [⟨⟨1, 5⟩, .io (readOf 7)⟩,
    ⟨⟨2, 8⟩, .io (readOf 0)⟩]).2.2.1 (by rw [hlength]; decide), hlength]
  rfl

end ParsedIoTraceEventHandler

end Octf.Parser
