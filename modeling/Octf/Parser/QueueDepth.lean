import Octf.Parser.CompletionMatching
import Octf.Parser.History

/-! The queue depth of the reported IOs. It counts the IOs in flight exactly where no completion
has the time stamp of its IO: such an IO is taken for one whose completion was lost. -/
namespace Octf.Parser
open Foundation

namespace ParsedIoTraceEventHandler

/-- What a step adds to the history of the queue: an IO with its device, another event, or the
latency that a completion is matched with. -/
def Op.record (c : Config) (op : Op) (s : ParsedIoTraceEventHandler)
    (history : List (Option Record)) : List (Option Record) :=
  match op with
  | .pushOut => history
  | .event e =>
    match e.eventType with
    | .io io =>
      if isOutside c io.lba io.len then history else history ++ [some ⟨io.deviceId, none⟩]
    | .filesystemFileEvent _ => history ++ [none]
    | .ioCompletion cmpl =>
      if isOutside c cmpl.lba cmpl.len then history
      else
        match s.getCachedEventById cmpl.refId with
        | none => history
        | some (pointer, cached) =>
          if cached.io.isSome ∧ cached.header.timestamp ≤ e.header.timestamp then
            history.set pointer (some
              ⟨cached.device.id, some (e.header.timestamp - cached.header.timestamp)⟩)
          else history
    | _ => history

/-- A step beside the history. -/
def Op.applyWith (c : Config) (op : Op) (p : ParsedIoTraceEventHandler × List (Option Record)) :
    ParsedIoTraceEventHandler × List (Option Record) := (op.apply c p.1, op.record c p.1 p.2)

/-- The history of the queue after these steps: what is known of every event that was queued. -/
def history (c : Config) (ops : List Op) : List (Option Record) :=
  (run (Op.applyWith c) ops (init, [])).2

/-- A completion carries the device of the IO it refers to. -/
def Op.CarriesDevice (op : Op) (s : ParsedIoTraceEventHandler) : Prop :=
  match op with
  | .pushOut => True
  | .event e =>
    match e.eventType with
    | .ioCompletion cmpl => ∀ pointer cached,
      s.getCachedEventById cmpl.refId = some (pointer, cached) → cached.device.id = cmpl.deviceId
    | _ => True

/-- Every IO is reported with one more than the number of IOs of its device before it that are
matched with a completion, but had not been when it was submitted. -/
def CountsInFlight (c : Config) (events : List Event) : Prop :=
  ∀ pre header io post, schedule c events = pre ++ .event ⟨header, .io io⟩ :: post →
    isOutside c io.lba io.len = false →
    ∃ event parsed, (processEvents c events).handled[(after c pre).next]? = some event ∧
      event.io = some parsed ∧
      parsed.qd = 1 + overlapping io.deviceId (history c pre) (history c (schedule c events))

/-- No IO comes behind one of its device that is matched with latency zero. -/
def NoInstantMatch (c : Config) (events : List Event) : Prop :=
  ∀ pre header io post, schedule c events = pre ++ .event ⟨header, .io io⟩ :: post →
    isOutside c io.lba io.len = false →
    some ⟨io.deviceId, some 0⟩ ∉ (history c (schedule c events)).take (after c pre).next

variable {c : Config} {s : ParsedIoTraceEventHandler} {events : List Event}

theorem record_step (op : Op) (h : List (Option Record)) :
    op.record c s h = (op.step c).record s.view h := by
  cases op with
  | pushOut => rfl
  | event e =>
    obtain ⟨header, type⟩ := e
    cases type with
    | io io =>
      simp only [Op.record, Op.step, eventStep]
      split_ifs <;> rfl
    | ioCompletion cmpl =>
      simp only [Op.record, Op.step, eventStep]
      split_ifs with houtside
      · rfl
      · simp only [IoCache.Step.record, view_find]
        cases s.getCachedEventById cmpl.refId with
        | none => rfl
        | some found =>
          obtain ⟨pointer, cached⟩ := found
          cases hio : cached.io with
          | none => simp [ParsedEvent.entry, hio]
          | some io => simp [ParsedEvent.entry, hio]
    | deviceDescription => rfl
    | filesystemMeta => rfl
    | filesystemFileName => rfl
    | filesystemFileEvent => rfl
    | notSet => rfl

theorem run_applyWith (ops : List Op) (p : ParsedIoTraceEventHandler × List (Option Record)) :
    ((run (Op.applyWith c) ops p).1.view, (run (Op.applyWith c) ops p).2) =
      run IoCache.Step.applyWith (ops.map (Op.step c)) (p.1.view, p.2) := by
  induction ops generalizing p with
  | nil => rfl
  | cons op ops ih =>
    rw [run_cons, ih, List.map_cons, run_cons]
    simp only [Op.applyWith, IoCache.Step.applyWith, view_apply, record_step]

theorem carriesDevice_step {op : Op} (hop : op.CarriesDevice s) :
    (op.step c).CarriesDevice s.view := by
  cases op with
  | pushOut => trivial
  | event e =>
    obtain ⟨header, type⟩ := e
    cases type with
    | io io =>
      simp only [Op.step, eventStep]
      split_ifs <;> trivial
    | ioCompletion cmpl =>
      simp only [Op.step, eventStep]
      split_ifs with houtside
      · trivial
      · intro number request hfind
        rw [view_find] at hfind
        obtain ⟨⟨pointer, cached⟩, hfound, hmap⟩ := Option.bind_eq_some_iff.mp hfind
        obtain ⟨request', hentry, heq⟩ := Option.map_eq_some_iff.mp hmap
        obtain ⟨rfl, rfl⟩ := Prod.mk.inj heq
        have hdevice := hop pointer cached hfound
        obtain ⟨io, -, rfl⟩ := Option.map_eq_some_iff.mp hentry
        exact hdevice
    | deviceDescription => trivial
    | filesystemMeta => trivial
    | filesystemFileName => trivial
    | filesystemFileEvent => trivial
    | notSet => trivial

/-! ### Room for the numbers -/

theorem next_acceptEvent (event : Event) : (s.acceptEvent c event).next ≤ s.next + 1 := by
  rw [← view_next, ← view_next, view_acceptEvent]
  exact IoCache.next_apply_le _

theorem next_pushOutEvent : (s.pushOutEvent c).next = s.next := by
  rw [← view_next, ← view_next, view_pushOutEvent, IoCache.next_pushOut]

theorem next_flushCompleted (rounds : ℕ) : (s.flushCompleted c rounds).next = s.next := by
  induction rounds generalizing s with
  | zero => rfl
  | succ rounds ih =>
    unfold flushCompleted
    split
    · rfl
    · split_ifs
      · rw [ih, next_pushOutEvent]
      · rfl

theorem next_flushRest (isFinished : Bool) (rounds : ℕ) :
    (s.flushRest c isFinished rounds).next = s.next := by
  induction rounds generalizing s with
  | zero => rfl
  | succ rounds ih =>
    unfold flushRest
    split
    · rfl
    · simp only
      split_ifs
      · exact next_pushOutEvent
      · rw [ih, next_pushOutEvent]

theorem next_flushEvents (isFinished : Bool) : (s.flushEvents c isFinished).next = s.next := by
  simp only [flushEvents]
  split_ifs
  · exact next_flushCompleted _
  · rw [next_flushRest, next_flushCompleted]

theorem next_handleEvents (events : List Event) :
    (s.handleEvents c events).next ≤ s.next + events.length := by
  induction events generalizing s with
  | nil => exact le_rfl
  | cons event events ih =>
    have haccept := next_acceptEvent (c := c) (s := s) event
    have hhandle : (s.handleEvent c events.isEmpty event).next = (s.acceptEvent c event).next := by
      simp only [handleEvent]
      split_ifs
      · exact next_flushEvents _
      · rfl
    have hrest := ih (s := s.handleEvent c events.isEmpty event)
    simp only [handleEvents, List.length_cons]
    omega

/-- Every event of the trace takes at most one number. -/
theorem next_schedule : (after c (schedule c events)).next ≤ events.length := by
  have hevents := next_handleEvents (c := c) (s := init) events
  have hinit : init.next = 0 := rfl
  rw [after_schedule, processEvents, next_flushEvents]
  omega

theorem next_le_run (ops : List Op) : s.next ≤ (run (Op.apply c) ops s).next := by
  induction ops generalizing s with
  | nil => exact le_rfl
  | cons op ops ih =>
    have hstep : s.next ≤ (op.apply c s).next := by
      rw [← view_next, ← view_next, view_apply]
      exact IoCache.next_le_apply _
    exact hstep.trans ih

/-- The steps of the cache fit where those of the handler do. -/
theorem fits_step {ops : List Op} (hdevices : Meets (Op.apply c) Op.CarriesDevice ops s)
    (hroom : (run (Op.apply c) ops s).next < 2 ^ 64) (h : List (Option Record)) :
    Meets IoCache.Step.applyWith IoCache.Step.Fits (ops.map (Op.step c)) (s.view, h) := by
  induction ops generalizing s h with
  | nil => trivial
  | cons op ops ih =>
    refine ⟨⟨carriesDevice_step hdevices.1, ?_⟩, ?_⟩
    · rw [← view_apply, view_next]
      exact (next_le_run ops).trans_lt hroom
    · have hrest := ih hdevices.2 hroom (op.record c s h)
      simpa only [IoCache.Step.applyWith, view_apply, record_step] using hrest

theorem view_history (ops : List Op) : ((after c ops).view, history c ops) =
    run IoCache.Step.applyWith (ops.map (Op.step c)) (.start, []) := by
  have hfst : ∀ (ops : List Op) (p : ParsedIoTraceEventHandler × List (Option Record)),
      (run (Op.applyWith c) ops p).1 = run (Op.apply c) ops p.1 := by
    intro ops
    induction ops with
    | nil => exact fun p => rfl
    | cons op ops ih => exact fun p => ih _
  rw [after, ← hfst ops (init, []), history]
  exact run_applyWith ops (init, [])

/-- The depth an IO is reported with, from what the histories say. -/
theorem reported_depth {pre post : List Op} {header : EventHeader} {io : EventIo}
    (hdevices : Meets (Op.apply c) Op.CarriesDevice (schedule c events) init)
    (hlength : events.length < 2 ^ 64)
    (hschedule : schedule c events = pre ++ .event ⟨header, .io io⟩ :: post)
    (hinside : isOutside c io.lba io.len = false) :
    ∃ event parsed, (processEvents c events).handled[(after c pre).next]? = some event ∧
      event.io = some parsed ∧ Extends (history c pre) (history c (schedule c events)) ∧
      (history c pre).length = (after c pre).next ∧ (after c pre).next < events.length ∧
      parsed.qd = sub64 ((history c pre).countP (Unmatched io.deviceId) + 1)
        (((history c (schedule c events)).take (after c pre).next).countP
          (Instant io.deviceId)) := by
  have hroom : (run (Op.apply c) (schedule c events) init).next < 2 ^ 64 :=
    (next_schedule (c := c)).trans_lt hlength
  have hfits := fits_step hdevices hroom []
  rw [view_init, hschedule, List.map_append, List.map_cons] at hfits
  obtain ⟨hpre, hio, hpost⟩ := hfits.append
  have hfinal := view_history (c := c) (schedule c events)
  rw [hschedule, List.map_append, List.map_cons, run_append, run_cons, ← hschedule] at hfinal
  rw [← view_history] at hio hpost hfinal
  have hbalanced : IoCache.Balanced (after c pre).view (history c pre) := by
    have := IoCache.balanced_run hpre IoCache.balanced_start
    rwa [← view_history] at this
  have hstep : Op.step c (.event ⟨header, .io io⟩) =
      .submit header.timestamp header.sid io.id io.deviceId := by
    simp [Op.step, eventStep, hinside]
  rw [hstep] at hio hpost hfinal
  have hnext : (after c pre).view.next + 1 < 2 ^ 64 := by
    rw [← IoCache.next_submit]
    exact hio.2
  have hfollows := IoCache.follows_run hpost (IoCache.follows_submit hbalanced hnext)
  rw [← hfinal] at hfollows
  obtain ⟨report, hreport, hqd⟩ := IoCache.depth_of_follows hfollows (by
    rw [after_schedule, view_queue, processEvents_queue]
    rfl)
  have hbound : (after c pre).next < events.length := by
    have hsubmit : (Op.apply c (.event ⟨header, .io io⟩) (after c pre)).next =
        (after c pre).next + 1 := by
      rw [← view_next, view_apply, hstep, ← view_next]
      exact IoCache.next_submit
    have hrest := next_le_run (c := c) (s := Op.apply c (.event ⟨header, .io io⟩) (after c pre))
      post
    rw [hsubmit, ← run_cons, ← after_append, ← hschedule] at hrest
    exact hrest.trans next_schedule
  have hhandled : (after c (schedule c events)).view.reported =
      (processEvents c events).handled.map ParsedEvent.report := by
    rw [after_schedule]
    rfl
  rw [view_next, hhandled, List.getElem?_map] at hreport
  obtain ⟨event, hevent, hparsed⟩ := Option.map_eq_some_iff.mp hreport
  obtain ⟨parsed, hio', rfl⟩ := Option.map_eq_some_iff.mp hparsed
  rw [view_next] at hqd
  exact ⟨event, parsed, hevent, hio', hfollows.later, by rw [hbalanced.length, view_next], hbound,
    hqd⟩

/-- A depth is right when no request before it was matched with latency zero. -/
theorem depth_eq_iff {inFlight unmatched lost instant bound : ℕ} (hbound : bound < 2 ^ 64)
    (hunmatched : unmatched < bound) (hinstant : instant < bound) (hlost : lost < bound)
    (hcount : unmatched + instant = inFlight + lost) :
    sub64 (unmatched + 1) lost = 1 + inFlight ↔ instant = 0 := by
  unfold sub64
  omega

theorem countsInFlight_iff (c : Config) (events : List Event)
    (hdevices : Meets (Op.apply c) Op.CarriesDevice (schedule c events) init)
    (hlength : events.length < 2 ^ 64) : CountsInFlight c events ↔ NoInstantMatch c events := by
  have hdepth : ∀ pre header io post,
      schedule c events = pre ++ .event ⟨header, .io io⟩ :: post →
      isOutside c io.lba io.len = false → ∃ event parsed,
        (processEvents c events).handled[(after c pre).next]? = some event ∧
        event.io = some parsed ∧
        (parsed.qd = 1 + overlapping io.deviceId (history c pre)
          (history c (schedule c events)) ↔
        some ⟨io.deviceId, some 0⟩ ∉
          (history c (schedule c events)).take (after c pre).next) := by
    intro pre header io post hschedule hinside
    obtain ⟨event, parsed, hevent, hio, hextends, hnumber, hbound, hqd⟩ :=
      reported_depth hdevices hlength hschedule hinside
    have hcount := hextends.count io.deviceId
    rw [hnumber] at hcount
    have htake := List.length_take_le (after c pre).next (history c (schedule c events))
    have hunmatched := List.countP_le_length (p := Unmatched io.deviceId) (l := history c pre)
    have hinstant := List.countP_le_length (p := (· = some ⟨io.deviceId, some 0⟩))
      (l := (history c (schedule c events)).take (after c pre).next)
    have hlost := List.countP_le_length (p := Instant io.deviceId)
      (l := (history c (schedule c events)).take (after c pre).next)
    refine ⟨event, parsed, hevent, hio, ?_⟩
    rw [hqd, depth_eq_iff hlength (by omega) (by omega) (by omega) hcount, List.countP_eq_zero]
    simp only [decide_eq_true_eq]
    exact ⟨fun hall hmem => hall _ hmem rfl, fun hnot record hmem heq => hnot (heq ▸ hmem)⟩
  constructor
  · intro hcounts pre header io post hschedule hinside
    obtain ⟨event, parsed, hevent, hio, hiff⟩ := hdepth pre header io post hschedule hinside
    obtain ⟨event', parsed', hevent', hio', hqd⟩ := hcounts pre header io post hschedule hinside
    obtain rfl := Option.some.inj (hevent.symm.trans hevent')
    obtain rfl := Option.some.inj (hio.symm.trans hio')
    exact hiff.mp hqd
  · intro hnone pre header io post hschedule hinside
    obtain ⟨event, parsed, hevent, hio, hiff⟩ := hdepth pre header io post hschedule hinside
    exact ⟨event, parsed, hevent, hio, hiff.mpr (hnone pre header io post hschedule hinside)⟩

theorem countsInFlight_iff_small :
    CountsInFlight plain
        [⟨⟨1, 5⟩, .io (readOf 7)⟩, ⟨⟨2, 6⟩, .ioCompletion (completionOf 7)⟩] ↔
      NoInstantMatch plain
        [⟨⟨1, 5⟩, .io (readOf 7)⟩, ⟨⟨2, 6⟩, .ioCompletion (completionOf 7)⟩] :=
  countsInFlight_iff plain _ ⟨trivial, fun _ _ hfound => by cases hfound; rfl, trivial, trivial⟩
    (by decide)

/-- An IO, its completion at the same time, and a later IO. -/
def instantEvents : List Event :=
  [⟨⟨1, 5⟩, .io (readOf 7)⟩, ⟨⟨2, 5⟩, .ioCompletion (completionOf 7)⟩, ⟨⟨3, 6⟩, .io (readOf 8)⟩]

/-- The later IO is reported with a queue depth of zero. -/
theorem countsInFlight_instant : ¬ CountsInFlight plain instantEvents := by
  intro hcounts
  have hschedule : schedule plain instantEvents =
      [.event ⟨⟨1, 5⟩, .io (readOf 7)⟩, .event ⟨⟨2, 5⟩, .ioCompletion (completionOf 7)⟩] ++
        .event ⟨⟨3, 6⟩, .io (readOf 8)⟩ :: [.pushOut, .pushOut] := rfl
  obtain ⟨event, parsed, hevent, hio, hqd⟩ := hcounts _ _ _ _ hschedule rfl
  have hreported : ((processEvents plain instantEvents).handled[1]?.bind fun event =>
      event.io.map ParsedIo.qd) = some 0 := by decide
  have hnumber : (after plain [.event ⟨⟨1, 5⟩, .io (readOf 7)⟩,
      .event ⟨⟨2, 5⟩, .ioCompletion (completionOf 7)⟩]).next = 1 := rfl
  have hzero : parsed.qd = 0 := by
    rw [hnumber] at hevent
    rw [hevent] at hreported
    simpa [hio] using hreported
  omega

end ParsedIoTraceEventHandler

end Octf.Parser
