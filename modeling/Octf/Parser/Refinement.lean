import Octf.Parser.Schedule

/-! The handler refines the cache of requests: seen without what it adds to the events, every
step of it is one step of the cache. -/
namespace Octf.Parser
open Foundation

/-- A queued event as an entry of the cache. -/
def ParsedEvent.entry (event : ParsedEvent) : Option Cached :=
  event.io.map fun io =>
    ⟨event.header.sid, event.header.timestamp, event.device.id, io.latency, io.error, io.qd⟩

/-- What a parsed event says of its request. -/
def ParsedEvent.report (event : ParsedEvent) : Option Report :=
  event.io.map fun io => ⟨event.device.id, io.latency, io.error, io.qd⟩

@[simp]
def Callback.io : Callback → Option ParsedEvent
  | .handleIo event => some event
  | .handleDeviceDescription _ => none

namespace ParsedIoTraceEventHandler

/-- The parsed events the parent handler has got. -/
def handled (s : ParsedIoTraceEventHandler) : List ParsedEvent := s.callbacks.filterMap Callback.io

/-- The handler as a cache of requests. -/
def view (s : ParsedIoTraceEventHandler) : IoCache where
  queue := s.queue.map ParsedEvent.entry
  popped := s.popped
  idMapping := s.idMapping
  depth := s.devIoQueueDepth
  reported := s.handled.map ParsedEvent.report

/-- The step of the cache that an event of the trace is. -/
def eventStep (c : Config) (event : Event) : IoCache.Step :=
  match event.eventType with
  | .io io =>
    if isOutside c io.lba io.len then .quiet
    else .submit event.header.timestamp event.header.sid io.id io.deviceId
  | .ioCompletion cmpl =>
    if isOutside c cmpl.lba cmpl.len then .quiet
    else .complete event.header.timestamp cmpl.refId cmpl.deviceId cmpl.error
  | .filesystemFileEvent _ => .other
  | _ => .quiet

/-- The step of the cache that a step of the handler is. -/
def Op.step (c : Config) : Op → IoCache.Step
  | .event e => eventStep c e
  | .pushOut => .pushOut

variable {c : Config} {s : ParsedIoTraceEventHandler}

@[simp] theorem view_init : init.view = .start := rfl

@[simp] theorem view_queue : s.view.queue = s.queue.map ParsedEvent.entry := rfl

@[simp] theorem view_popped : s.view.popped = s.popped := rfl

@[simp] theorem view_idMapping : s.view.idMapping = s.idMapping := rfl

@[simp] theorem view_depth : s.view.depth = s.devIoQueueDepth := rfl

@[simp] theorem view_reported :
    s.view.reported = (s.callbacks.filterMap Callback.io).map ParsedEvent.report := rfl

@[simp] theorem view_touchDevice (id : ℕ) : (s.touchDevice id).view = s.view := by
  unfold touchDevice
  split_ifs
  · rfl
  · rfl

@[simp] theorem view_noteTimestamp (event : Event) : (s.noteTimestamp event).view = s.view := by
  unfold noteTimestamp
  split_ifs
  · split
    · rfl
    · rfl
  · rfl

theorem view_acceptDeviceDescription (device : EventDeviceDescription) :
    (s.acceptDeviceDescription device).view = s.view := by
  simp [acceptDeviceDescription, view, handled, Callback.io]

theorem view_emplace (event : ParsedEvent) :
    (s.emplace event).view = { s.view with queue := s.view.queue ++ [event.entry] } := by
  simp [emplace, view, handled]

/-- Replacing an event by one with the same request changes nothing. -/
theorem view_update {pointer : ℕ} {event event' : ParsedEvent}
    (hcached : s.cached pointer = some event) (hentry : event'.entry = event.entry) :
    (s.update pointer event').view = s.view := by
  unfold cached at hcached
  split_ifs at hcached with hpopped
  have hset : (s.queue.set (pointer - s.popped) event').map ParsedEvent.entry =
      s.queue.map ParsedEvent.entry := by
    obtain ⟨hlt, hget⟩ := List.getElem?_eq_some_iff.mp hcached
    apply List.ext_getElem (by simp)
    intro i hi _
    rw [List.getElem_map, List.getElem_map, List.getElem_set]
    split_ifs with heq
    · subst heq
      rw [hentry, hget]
    · rfl
  simp [update, hpopped, view, hset, handled]

theorem view_find (id : ℕ) :
    s.view.find id = (s.getCachedEventById id).bind fun found =>
      found.2.entry.map fun request => (found.1, request) := by
  unfold IoCache.find getCachedEventById
  rw [view_idMapping]
  cases s.idMapping id with
  | none => rfl
  | some pointer =>
    simp only [IoCache.entry, cached, view_popped, view_queue, List.getElem?_map]
    split_ifs
    · cases s.queue[pointer - s.popped]? with
      | none => rfl
      | some event => rfl
    · rfl

theorem cached_of_getCachedEventById {id pointer : ℕ} {event : ParsedEvent}
    (hfound : s.getCachedEventById id = some (pointer, event)) :
    s.cached pointer = some event := by
  unfold getCachedEventById at hfound
  split at hfound
  · cases hfound
  · obtain ⟨_, hcached, heq⟩ := Option.map_eq_some_iff.mp hfound
    cases heq
    exact hcached

theorem le_of_cached {pointer : ℕ} {event : ParsedEvent}
    (hcached : s.cached pointer = some event) : s.popped ≤ pointer := by
  unfold cached at hcached
  split_ifs at hcached with hpopped
  exact hpopped

@[simp] theorem touchDevice_queue (id : ℕ) : (s.touchDevice id).queue = s.queue := by
  unfold touchDevice
  split_ifs <;> rfl

@[simp] theorem touchDevice_popped (id : ℕ) : (s.touchDevice id).popped = s.popped := by
  unfold touchDevice
  split_ifs <;> rfl

@[simp] theorem touchDevice_idMapping (id : ℕ) : (s.touchDevice id).idMapping = s.idMapping := by
  unfold touchDevice
  split_ifs <;> rfl

@[simp] theorem touchDevice_devIoQueueDepth (id : ℕ) :
    (s.touchDevice id).devIoQueueDepth = s.devIoQueueDepth := by
  unfold touchDevice
  split_ifs <;> rfl

@[simp] theorem touchDevice_callbacks (id : ℕ) : (s.touchDevice id).callbacks = s.callbacks := by
  unfold touchDevice
  split_ifs <;> rfl

theorem view_acceptIo (header : EventHeader) (src : EventIo)
    (hinside : isOutside c src.lba src.len = false) :
    (s.acceptIo c header src).view =
      s.view.submit header.timestamp header.sid src.id src.deviceId := by
  unfold acceptIo
  rw [hinside, if_neg Bool.false_ne_true]
  simp only [addMapping]
  split_ifs with hid
  · rw [view_emplace]
    ext : 1 <;> simp [ParsedEvent.entry, IoCache.submit, hid]
  · rw [view_emplace]
    ext : 1 <;> simp [ParsedEvent.entry, IoCache.submit, hid]

theorem view_acceptIoCompletion (header : EventHeader) (cmpl : EventIoCompletion) :
    (s.acceptIoCompletion header cmpl).view =
      s.view.complete header.timestamp cmpl.refId cmpl.deviceId cmpl.error := by
  unfold acceptIoCompletion IoCache.complete
  rw [view_find]
  cases hfound : s.getCachedEventById cmpl.refId with
  | none => rfl
  | some found =>
    obtain ⟨pointer, event⟩ := found
    have hcached := cached_of_getCachedEventById hfound
    have hpopped := le_of_cached hcached
    cases hio : event.io with
    | none =>
      have hentry : event.entry = none := by simp [ParsedEvent.entry, hio]
      simp only [delMapping, hio, Option.isSome_none, Bool.false_eq_true, if_false, hentry,
        Option.bind_some, Option.map_none]
      split_ifs
      · rfl
      · exact view_update hcached rfl
    | some io =>
      have hentry : event.entry = some ⟨event.header.sid, event.header.timestamp,
          event.device.id, io.latency, io.error, io.qd⟩ := by
        simp [ParsedEvent.entry, hio]
      simp only [delMapping, hio, Option.isSome_some, if_true, hentry, Option.bind_some,
        Option.map_some, update, hpopped, IoCache.settle, view_depth, view_popped]
      by_cases htime : event.header.timestamp ≤ header.timestamp
      · simp only [htime, if_true, true_and]
        split_ifs
        all_goals ext : 1 <;> simp [ParsedEvent.entry]
      · simp only [htime, if_false, false_and]
        ext : 1 <;> simp [ParsedEvent.entry]

theorem view_acceptFilesystemMeta (src : EventIoFilesystemMeta) :
    (s.acceptFilesystemMeta c src).view = s.view := by
  unfold acceptFilesystemMeta
  cases hfound : s.getCachedEventById (c.version.metaRef src) with
  | none => rfl
  | some found =>
    obtain ⟨pointer, event⟩ := found
    have hcached := cached_of_getCachedEventById hfound
    simp only
    split_ifs
    · exact view_update hcached rfl
    · exact (view_touchDevice _).trans (view_update hcached rfl)
    · exact view_update hcached rfl
    · exact (view_touchDevice _).trans (view_update hcached rfl)

theorem view_acceptFilesystemFileEvent (header : EventHeader) (src : EventIoFilesystemFileEvent) :
    (s.acceptFilesystemFileEvent c header src).view = IoCache.Step.other.apply s.view := by
  unfold acceptFilesystemFileEvent
  simp only [IoCache.Step.apply]
  split_ifs
  · ext : 1 <;> simp [emplace, ParsedEvent.entry]
  · ext : 1 <;> simp [emplace, ParsedEvent.entry]
  · rw [view_emplace, view_touchDevice]
    rfl

theorem view_acceptFilesystemFileName (src : EventIoFilesystemFileName) :
    (s.acceptFilesystemFileName c src).view = s.view := by
  unfold acceptFilesystemFileName
  split_ifs
  · rfl
  · rfl

theorem view_pushOutEvent : (s.pushOutEvent c).view = s.view.pushOut := by
  unfold pushOutEvent IoCache.pushOut
  cases hqueue : s.queue with
  | nil => simp [hqueue]
  | cons event queue =>
    cases hio : event.io with
    | none =>
      have hentry : event.entry = none := by simp [ParsedEvent.entry, hio]
      ext : 1 <;> simp [hqueue, delMapping, hio, hentry, ParsedEvent.report]
    | some io =>
      ext : 1 <;> simp [hqueue, delMapping, hio, ParsedEvent.entry, ParsedEvent.report,
        ParsedEvent.latency]

/-- An event of the trace does to the cache what its step says. -/
theorem view_acceptEvent (event : Event) :
    (s.acceptEvent c event).view = (eventStep c event).apply s.view := by
  unfold acceptEvent eventStep
  cases event.eventType with
  | io io =>
    simp only
    split_ifs with houtside
    · simp [acceptIo, houtside, IoCache.Step.apply]
    · rw [view_acceptIo _ _ (by simpa using houtside), view_noteTimestamp]
      rfl
  | deviceDescription device =>
    exact (view_acceptDeviceDescription device).trans (view_noteTimestamp event)
  | filesystemMeta src => exact (view_acceptFilesystemMeta src).trans (view_noteTimestamp event)
  | ioCompletion cmpl =>
    simp only
    split_ifs with houtside
    · exact view_noteTimestamp event
    · rw [view_acceptIoCompletion, view_noteTimestamp]
      rfl
  | filesystemFileName src =>
    exact (view_acceptFilesystemFileName src).trans (view_noteTimestamp event)
  | filesystemFileEvent src =>
    simp only
    rw [view_acceptFilesystemFileEvent, view_noteTimestamp]
  | notSet => exact view_noteTimestamp event

theorem view_apply (op : Op) : (op.apply c s).view = (op.step c).apply s.view := by
  cases op with
  | event e => exact view_acceptEvent e
  | pushOut => exact view_pushOutEvent

/-- A run of the handler is a run of the cache. -/
theorem view_run (ops : List Op) :
    (run (Op.apply c) ops s).view = run IoCache.Step.apply (ops.map (Op.step c)) s.view := by
  induction ops generalizing s with
  | nil => rfl
  | cons op ops ih =>
    rw [run_cons, ih, view_apply]
    rfl

end ParsedIoTraceEventHandler

end Octf.Parser
