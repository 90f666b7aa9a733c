import Octf.Parser.CompletionMatching

/-! Requests over one trace: the first parses it and commits the parsed events as a trace
extension, the later ones replay the extension. -/
namespace Octf.Parser
open Foundation

def Event.isDescription (e : Event) : Bool :=
  match e.eventType with
  | .deviceDescription _ => true
  | _ => false

namespace ParsedIoTraceEventHandler

/-- A request by its exclusive subrange; an end of zero means none. -/
structure Request where
  subrangeStart : ℕ
  subrangeEnd : ℕ
  deriving DecidableEq

/-- The handler of a request that finds the extension writable. -/
def Request.config (c : Config) (r : Request) : Config :=
  { c with subrangeStart := r.subrangeStart, subrangeEnd := r.subrangeEnd, isWritable := true }

/-- The `.ParsedIO` extension once it is committed, and the callbacks of every request so far. -/
structure Library where
  committed : Option (List (ℕ × ParsedEvent))
  answers : List (List Callback)

def Library.start : Library := ⟨none, []⟩

/-- The callbacks when the raw trace is parsed from scratch. -/
def fresh (c : Config) (events : List Event) (r : Request) : List Callback :=
  (processEvents (r.config c) events).callbacks

/-- `processEvents` of a request's handler. -/
def Request.apply (c : Config) (events : List Event) (r : Request) (lib : Library) : Library :=
  match lib.committed with
  | some records =>
    { lib with answers := lib.answers ++ [records.map fun record => .handleIo record.2] }
  | none =>
    let s := processEvents (r.config c) events
    ⟨some s.extTrace, lib.answers ++ [s.callbacks]⟩

/-- Every request gets what it would get from the raw trace. -/
def Transparent (c : Config) (events : List Event) (requests : List Request) : Prop :=
  (run (Request.apply c events) requests .start).answers = requests.map (fresh c events)

instance (c : Config) (events : List Event) (requests : List Request) :
    Decidable (Transparent c events requests) := inferInstanceAs (Decidable (_ = _))

/-- Both subranges keep the same IOs and completions of the trace. -/
def SameSubrange (c : Config) (events : List Event) (r r' : Request) : Prop :=
  ∀ e ∈ events, match e.eventType with
    | .io io => isOutside (r.config c) io.lba io.len = isOutside (r'.config c) io.lba io.len
    | .ioCompletion cmpl =>
      isOutside (r.config c) cmpl.lba cmpl.len = isOutside (r'.config c) cmpl.lba cmpl.len
    | _ => True

/-- A second request needs a trace without device descriptions, which the extension does not
hold, and the subrange of the first. -/
def Replayable (c : Config) (events : List Event) : List Request → Prop
  | [] => True
  | r :: rest => rest = [] ∨
    (∀ e ∈ events, e.isDescription = false) ∧ ∀ r' ∈ rest, SameSubrange c events r r'

variable {c : Config} {events : List Event} {r r' : Request}

/-! ### The same subrange -/

theorem pushOutEvent_config (r r' : Request) (s : ParsedIoTraceEventHandler) :
    s.pushOutEvent (r.config c) = s.pushOutEvent (r'.config c) := rfl

theorem flushCompleted_config (r r' : Request) (rounds : ℕ) (s : ParsedIoTraceEventHandler) :
    s.flushCompleted (r.config c) rounds = s.flushCompleted (r'.config c) rounds := by
  induction rounds generalizing s with
  | zero => rfl
  | succ rounds ih =>
    cases hqueue : s.queue with
    | nil => simp only [flushCompleted, hqueue]
    | cons event queue =>
      simp only [flushCompleted, hqueue]
      split_ifs
      · rw [ih, pushOutEvent_config r r']
      · rfl

theorem flushRest_config (r r' : Request) (isFinished : Bool) (rounds : ℕ)
    (s : ParsedIoTraceEventHandler) :
    s.flushRest (r.config c) isFinished rounds = s.flushRest (r'.config c) isFinished rounds := by
  induction rounds generalizing s with
  | zero => rfl
  | succ rounds ih =>
    cases hqueue : s.queue with
    | nil => simp only [flushRest, hqueue]
    | cons event queue => simp only [flushRest, hqueue, ih, pushOutEvent_config r r']

theorem flushEvents_config (r r' : Request) (isFinished : Bool) (s : ParsedIoTraceEventHandler) :
    s.flushEvents (r.config c) isFinished = s.flushEvents (r'.config c) isFinished := by
  simp only [flushEvents, flushCompleted_config r r', flushRest_config r r']

/-- An event that both subranges keep or both skip. -/
theorem handleEvent_config {e : Event} (hsame : SameSubrange c [e] r r') (isFinished : Bool)
    (s : ParsedIoTraceEventHandler) :
    s.handleEvent (r.config c) isFinished e = s.handleEvent (r'.config c) isFinished e := by
  have haccept : s.acceptEvent (r.config c) e = s.acceptEvent (r'.config c) e ∧
      flushesAfter (r.config c) e = flushesAfter (r'.config c) e := by
    have he := hsame e (by simp)
    obtain ⟨header, type⟩ := e
    cases type with
    | io io =>
      simp only at he
      simp only [acceptEvent, acceptIo, flushesAfter, he]
      exact ⟨rfl, trivial⟩
    | ioCompletion cmpl =>
      simp only at he
      simp only [acceptEvent, flushesAfter, he]
      exact ⟨trivial, trivial⟩
    | deviceDescription => exact ⟨rfl, rfl⟩
    | filesystemMeta => exact ⟨rfl, rfl⟩
    | filesystemFileName => exact ⟨rfl, rfl⟩
    | filesystemFileEvent => exact ⟨rfl, rfl⟩
    | notSet => exact ⟨rfl, rfl⟩
  simp only [handleEvent, haccept, flushEvents_config r r']

theorem handleEvents_config (hsame : SameSubrange c events r r') (s : ParsedIoTraceEventHandler) :
    s.handleEvents (r.config c) events = s.handleEvents (r'.config c) events := by
  induction events generalizing s with
  | nil => rfl
  | cons e events ih =>
    have hhead : SameSubrange c [e] r r' := by
      intro e' he'
      exact hsame e' (by simp_all)
    simp only [handleEvents, handleEvent_config hhead]
    exact ih (fun e' he' => hsame e' (List.mem_cons_of_mem _ he')) _

/-- The same events are kept, the same is parsed. -/
theorem processEvents_config (hsame : SameSubrange c events r r') :
    processEvents (r.config c) events = processEvents (r'.config c) events := by
  simp only [processEvents, handleEvents_config hsame, flushEvents_config r r']

/-! ### What the extension holds -/

/-- The call that an event makes at once. -/
def Event.announce (e : Event) : List Callback :=
  match e.eventType with
  | .deviceDescription device => [.handleDeviceDescription device]
  | _ => []

/-- What the parent handler and the extension have got so far. -/
def output (s : ParsedIoTraceEventHandler) : List Callback × List (ℕ × ParsedEvent) :=
  (s.callbacks, s.extTrace)

variable {s : ParsedIoTraceEventHandler}

theorem output_noteTimestamp (e : Event) : (s.noteTimestamp e).output = s.output := by
  unfold noteTimestamp
  split_ifs
  · split <;> rfl
  · rfl

theorem output_touchDevice (id : ℕ) : (s.touchDevice id).output = s.output := by
  unfold touchDevice
  split_ifs <;> rfl

theorem output_update (pointer : ℕ) (event : ParsedEvent) :
    (s.update pointer event).output = s.output := by
  unfold update
  split_ifs <;> rfl

theorem output_acceptIo (header : EventHeader) (io : EventIo) :
    (s.acceptIo c header io).output = s.output := by
  simp only [acceptIo, addMapping]
  split_ifs
  · rfl
  · exact (output_touchDevice io.deviceId)
  · exact (output_touchDevice io.deviceId)

theorem output_acceptIoCompletion (header : EventHeader) (cmpl : EventIoCompletion) :
    (s.acceptIoCompletion header cmpl).output = s.output := by
  have hdel : ∀ event, (s.delMapping event).2.output = s.output := by
    intro event
    unfold delMapping
    split_ifs <;> rfl
  unfold acceptIoCompletion
  split
  · rfl
  · next pointer event _ =>
    by_cases htime : event.header.timestamp ≤ header.timestamp
    · simp only [htime, if_true]
      cases (s.delMapping event).1.io with
      | none => exact hdel _
      | some io =>
        simp only
        split_ifs
        all_goals exact (output_update _ _).trans (hdel _)
    · simp only [htime, if_false]
      exact (output_update _ _).trans (hdel _)

theorem output_acceptFilesystemMeta (src : EventIoFilesystemMeta) :
    (s.acceptFilesystemMeta c src).output = s.output := by
  simp only [acceptFilesystemMeta]
  split
  · rfl
  · split_ifs
    · exact output_update _ _
    · exact (output_touchDevice _).trans (output_update _ _)
    · exact output_update _ _
    · exact (output_touchDevice _).trans (output_update _ _)

theorem output_acceptFilesystemFileEvent (header : EventHeader)
    (src : EventIoFilesystemFileEvent) :
    (s.acceptFilesystemFileEvent c header src).output = s.output := by
  simp only [acceptFilesystemFileEvent]
  split_ifs
  all_goals exact output_touchDevice _

/-- Events make calls only for the devices they describe. -/
theorem output_acceptEvent (e : Event) :
    (s.acceptEvent c e).output = (s.callbacks ++ Event.announce e, s.extTrace) := by
  have hnote := output_noteTimestamp (s := s) e
  have hsame : s.output = (s.callbacks ++ [], s.extTrace) := by simp [output]
  obtain ⟨header, type⟩ := e
  cases type with
  | io io => exact (output_acceptIo _ _).trans (hnote.trans hsame)
  | deviceDescription device =>
    obtain ⟨hcallbacks, hext⟩ := Prod.mk.inj hnote
    simp only [acceptEvent, acceptDeviceDescription, output, Event.announce]
    rw [hcallbacks, hext]
  | filesystemMeta src => exact (output_acceptFilesystemMeta _).trans (hnote.trans hsame)
  | ioCompletion cmpl =>
    simp only [acceptEvent]
    split_ifs
    · exact hnote.trans hsame
    · exact (output_acceptIoCompletion _ _).trans (hnote.trans hsame)
  | filesystemFileName src =>
    simp only [acceptEvent, acceptFilesystemFileName]
    split_ifs
    · exact hnote.trans hsame
    · exact hnote.trans hsame
  | filesystemFileEvent src =>
    exact (output_acceptFilesystemFileEvent _ _).trans (hnote.trans hsame)
  | notSet => exact hnote.trans hsame

/-- An event that is pushed out goes to the parent handler and into the extension. -/
theorem output_pushOutEvent (r : Request) : s.pushOutEvent (r.config c) = s ∨
    ∃ record : ℕ × ParsedEvent, (s.pushOutEvent (r.config c)).output =
      (s.callbacks ++ [.handleIo record.2], s.extTrace ++ [record]) := by
  cases hqueue : s.queue with
  | nil => exact Or.inl (by simp [pushOutEvent, hqueue])
  | cons event queue =>
    by_cases hio : event.io.isSome
    all_goals
      simp only [pushOutEvent, hqueue, delMapping, output, Request.config, hio, if_true]
      exact Or.inr ⟨(_, _), rfl⟩

/-- A replay of the extension makes the same calls. -/
def Replays (s : ParsedIoTraceEventHandler) : Prop :=
  s.callbacks = s.extTrace.map fun record => .handleIo record.2

theorem replays_apply (r : Request) {op : Op} (hs : s.Replays)
    (hop : ∀ e, op = .event e → e.isDescription = false) :
    (op.apply (r.config c) s).Replays := by
  cases op with
  | event e =>
    obtain ⟨hcallbacks, hext⟩ := Prod.mk.inj (output_acceptEvent (c := r.config c) (s := s) e)
    have hquiet : Event.announce e = [] := by
      have he := hop e rfl
      unfold Event.isDescription at he
      unfold Event.announce
      split
      · simp_all
      · rfl
    rw [Op.apply, Replays, hcallbacks, hext, hquiet, List.append_nil]
    exact hs
  | pushOut =>
    rcases output_pushOutEvent (c := c) (s := s) r with heq | ⟨record, hrecord⟩
    · rw [Op.apply, heq]
      exact hs
    · obtain ⟨hcallbacks, hext⟩ := Prod.mk.inj hrecord
      rw [Op.apply, Replays, hcallbacks, hext, List.map_append, hs]
      rfl

/-- The events among the steps of a trace are its own. -/
theorem mem_of_mem_schedule {e : Event} (he : Op.event e ∈ schedule c events) : e ∈ events := by
  have hcompleted : ∀ rounds (s : ParsedIoTraceEventHandler),
      Op.event e ∉ s.completedOps c rounds := by
    intro rounds
    induction rounds with
    | zero => simp [completedOps]
    | succ rounds ih =>
      intro s
      unfold completedOps
      split
      · simp
      · split_ifs
        · simpa using ih _
        · simp
  have hrest : ∀ isFinished rounds (s : ParsedIoTraceEventHandler),
      Op.event e ∉ s.restOps c isFinished rounds := by
    intro isFinished rounds
    induction rounds with
    | zero => simp [restOps]
    | succ rounds ih =>
      intro s
      unfold restOps
      split
      · simp
      · simp only
        split_ifs
        · simp
        · simpa using ih _
  have hflush : ∀ isFinished (s : ParsedIoTraceEventHandler),
      Op.event e ∉ s.flushOps c isFinished := by
    intro isFinished s hmem
    simp only [flushOps, List.mem_append] at hmem
    rcases hmem with hmem | hmem
    · exact hcompleted _ _ hmem
    · split_ifs at hmem
      · cases hmem
      · exact hrest _ _ _ hmem
  have hevents : ∀ (events : List Event) (s : ParsedIoTraceEventHandler),
      Op.event e ∈ s.eventsOps c events → e ∈ events := by
    intro events
    induction events with
    | nil => intro s hmem; cases hmem
    | cons event events ih =>
      intro s hmem
      simp only [eventsOps, eventOps, List.mem_append, List.mem_cons, Op.event.injEq] at hmem
      rcases hmem with (rfl | hmem) | hmem
      · exact List.mem_cons_self
      · split_ifs at hmem
        · exact absurd hmem (hflush _ _)
        · cases hmem
      · exact List.mem_cons_of_mem _ (ih _ hmem)
  rcases List.mem_append.mp he with hmem | hmem
  · exact hevents _ _ hmem
  · exact absurd hmem (hflush _ _)

theorem mem_schedule {e : Event} (he : e ∈ events) : Op.event e ∈ schedule c events := by
  have hevents : ∀ (events : List Event) (s : ParsedIoTraceEventHandler), e ∈ events →
      Op.event e ∈ s.eventsOps c events := by
    intro events
    induction events with
    | nil => intro s hmem; cases hmem
    | cons event events ih =>
      intro s hmem
      simp only [eventsOps, eventOps, List.mem_append, List.mem_cons, Op.event.injEq]
      rcases List.mem_cons.mp hmem with rfl | htail
      · exact Or.inl (Or.inl rfl)
      · exact Or.inr (ih _ htail)
  exact List.mem_append_left _ (hevents events init he)

/-- A call is never taken back. -/
theorem mem_callbacks_run {call : Callback} (r : Request) (ops : List Op)
    (hcall : call ∈ s.callbacks) : call ∈ (run (Op.apply (r.config c)) ops s).callbacks := by
  induction ops generalizing s with
  | nil => exact hcall
  | cons op ops ih =>
    have hstep : call ∈ (op.apply (r.config c) s).callbacks := by
      cases op with
      | event e =>
        have hcallbacks := (Prod.mk.inj (output_acceptEvent (c := r.config c) (s := s) e)).1
        simp only [Op.apply, hcallbacks]
        exact List.mem_append_left _ hcall
      | pushOut =>
        rcases output_pushOutEvent (c := c) (s := s) r with heq | ⟨record, hrecord⟩
        · simpa only [Op.apply, heq] using hcall
        · simp only [Op.apply, (Prod.mk.inj hrecord).1]
          exact List.mem_append_left _ hcall
    exact ih hstep

/-- A device description reaches the parent handler when the trace is parsed. -/
theorem mem_fresh_of_description {header : EventHeader} {device : EventDeviceDescription}
    (r : Request) (he : ⟨header, .deviceDescription device⟩ ∈ events) :
    .handleDeviceDescription device ∈ fresh c events r := by
  obtain ⟨pre, post, hsplit⟩ := List.append_of_mem (mem_schedule (c := r.config c) he)
  rw [fresh, ← run_schedule, hsplit, run_append, run_cons]
  apply mem_callbacks_run
  have hcallbacks := (Prod.mk.inj (output_acceptEvent (c := r.config c)
    (s := run (Op.apply (r.config c)) pre init) ⟨header, .deviceDescription device⟩)).1
  simp only [Op.apply, hcallbacks]
  exact List.mem_append_right _ (by simp [Event.announce])

/-- Without device descriptions a replay makes the calls that the parsing made. -/
theorem replays_processEvents (r : Request) (hevents : ∀ e ∈ events, e.isDescription = false) :
    (processEvents (r.config c) events).Replays := by
  rw [← run_schedule]
  refine run_invariant (C := fun op _ => ∀ e, op = .event e → e.isDescription = false) ?_
    (meets_of_forall ?_ _) rfl
  · intro op s hop hs
    exact replays_apply r hs hop
  · rintro op hop e rfl
    exact hevents e (mem_of_mem_schedule hop)

/-- Where the extension replays the parsing of the first request, every answer is right. -/
theorem answers_replayed {records : List (ℕ × ParsedEvent)} {rest : List Request}
    (hrecords : ∀ r' ∈ rest, fresh c events r' = records.map fun record => .handleIo record.2)
    (answers : List (List Callback)) :
    (run (Request.apply c events) rest ⟨some records, answers⟩).answers =
      answers ++ rest.map (fresh c events) := by
  induction rest generalizing answers with
  | nil => exact (List.append_nil answers).symm
  | cons r' rest ih =>
    have hrest := ih (fun r hr => hrecords r (List.mem_cons_of_mem _ hr))
      (answers ++ [records.map fun record => .handleIo record.2])
    rw [run_cons, List.map_cons, hrecords r' List.mem_cons_self]
    simp only [Request.apply]
    rw [hrest, List.append_assoc]
    rfl

/-- No second request gets the device descriptions of a trace. -/
theorem no_descriptions_of_transparent {r r' : Request} {rest : List Request}
    (htransparent : Transparent c events (r :: r' :: rest)) :
    ∀ e ∈ events, e.isDescription = false := by
  rintro ⟨header, type⟩ he
  cases type with
  | deviceDescription device =>
    have hprefix : ∀ (rest : List Request) (records : List (ℕ × ParsedEvent))
        (answers : List (List Callback)), ∃ more,
        (run (Request.apply c events) rest ⟨some records, answers⟩).answers = answers ++ more := by
      intro rest
      induction rest with
      | nil => exact fun records answers => ⟨[], (List.append_nil answers).symm⟩
      | cons r rest ih =>
        intro records answers
        obtain ⟨more, hmore⟩ := ih records
          (answers ++ [records.map fun record => .handleIo record.2])
        exact ⟨[records.map fun record => .handleIo record.2] ++ more, by
          rw [run_cons, ← List.append_assoc]
          exact hmore⟩
    obtain ⟨more, hmore⟩ := hprefix rest (processEvents (r.config c) events).extTrace
      [fresh c events r,
        (processEvents (r.config c) events).extTrace.map fun record => .handleIo record.2]
    have hanswers : (run (Request.apply c events) (r :: r' :: rest) .start).answers =
        [fresh c events r, (processEvents (r.config c) events).extTrace.map fun record =>
          .handleIo record.2] ++ more := hmore
    unfold Transparent at htransparent
    rw [hanswers, List.map_cons, List.map_cons] at htransparent
    have hsecond := (List.cons.inj (List.cons.inj htransparent).2).1
    have hmem := mem_fresh_of_description (c := c) r' he
    rw [← hsecond] at hmem
    simp at hmem
  | io => rfl
  | filesystemMeta => rfl
  | ioCompletion => rfl
  | filesystemFileName => rfl
  | filesystemFileEvent => rfl
  | notSet => rfl

/-- Every request gets what it would get from the raw trace, where the requests behind the
first need nothing else than the first has left. -/
theorem transparent_of_replayable (c : Config) (events : List Event) (requests : List Request)
    (hreplayable : Replayable c events requests) : Transparent c events requests := by
  unfold Transparent
  cases requests with
  | nil => rfl
  | cons r rest =>
    rw [run_cons]
    rcases hreplayable with rfl | ⟨hevents, hsame⟩
    · rfl
    · have hrecords : ∀ r' ∈ rest, fresh c events r' =
          (processEvents (r.config c) events).extTrace.map fun record => .handleIo record.2 := by
        intro r' hr'
        rw [fresh, ← processEvents_config (hsame r' hr')]
        exact replays_processEvents r hevents
      exact answers_replayed hrecords _

theorem transparent_of_replayable_small :
    Transparent plain [⟨⟨1, 1⟩, .io (readOf 7)⟩, ⟨⟨2, 3⟩, .ioCompletion (completionOf 7)⟩]
      [⟨0, 0⟩, ⟨0, 100⟩] :=
  transparent_of_replayable plain _ _ (Or.inr ⟨by decide, by
    intro r hr e he
    simp only [List.mem_cons, List.not_mem_nil, or_false] at hr he
    rcases he with rfl | rfl
    · rw [hr]
      rfl
    · rw [hr]
      rfl⟩)

/-- A trace with a device description, and two requests with different subranges. -/
theorem transparent_fails :
    ¬ Transparent plain [⟨⟨1, 1⟩, .deviceDescription ⟨1, "disk", 8, "model"⟩⟩]
      [⟨0, 0⟩, ⟨0, 0⟩] ∧
    ¬ Transparent plain [⟨⟨1, 1⟩, .io (readOf 7)⟩] [⟨100, 200⟩, ⟨0, 0⟩] := by
  constructor
  · decide
  · decide

end ParsedIoTraceEventHandler

end Octf.Parser
