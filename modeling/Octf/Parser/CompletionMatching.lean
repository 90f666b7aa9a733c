import Octf.Parser.Outcome
import Octf.Parser.Refinement

/-! The completion a request is reported with. The handler agrees with the first completion of
the id except where the push-out of an older event takes the id away in between. -/
namespace Octf.Parser
open Foundation

namespace ParsedIoTraceEventHandler

/-- The number the next queued event gets; its report is the one with this number. -/
def next (s : ParsedIoTraceEventHandler) : ℕ := s.popped + s.queue.length

/-- The handler after these steps. -/
def after (c : Config) (ops : List Op) : ParsedIoTraceEventHandler := run (Op.apply c) ops init

def Op.Submits (id : ℕ) : Op → Prop
  | .event e => ∃ io, e.eventType = .io io ∧ io.id = id
  | .pushOut => False

def Op.Completes (id : ℕ) : Op → Prop
  | .event e => ∃ cmpl, e.eventType = .ioCompletion cmpl ∧ cmpl.refId = id
  | .pushOut => False

/-- The completion that an IO is to be reported with: the first one that refers to its id, not
before it in time, while the IO is cached and no other IO with the id has been submitted. The
steps `pre` come before the IO and the steps `mid` between the two. -/
structure CompletedBy (c : Config) (pre : List Op) (header : EventHeader) (io : EventIo)
    (mid : List Op) (header' : EventHeader) (cmpl : EventIoCompletion) : Prop where
  id_ne_zero : io.id ≠ 0
  refers : cmpl.refId = io.id
  first : ∀ op ∈ mid, ¬ op.Completes io.id
  alone : ∀ op ∈ mid, ¬ op.Submits io.id
  ordered : header.timestamp ≤ header'.timestamp
  cached : (after c (pre ++ .event ⟨header, .io io⟩ :: mid)).popped ≤ (after c pre).next

/-- Every IO is reported with the latency and the error of its completion, or with none. -/
def MatchesCompletions (c : Config) (events : List Event) : Prop :=
  ∀ pre header io post, schedule c events = pre ++ .event ⟨header, .io io⟩ :: post →
    ∃ event parsed, (processEvents c events).handled[(after c pre).next]? = some event ∧
      event.io = some parsed ∧
      (∀ mid header' cmpl rest, post = mid ++ .event ⟨header', .ioCompletion cmpl⟩ :: rest →
        CompletedBy c pre header io mid header' cmpl →
        parsed.latency = header'.timestamp - header.timestamp ∧ parsed.error = cmpl.error) ∧
      ((∀ mid header' cmpl rest, post = mid ++ .event ⟨header', .ioCompletion cmpl⟩ :: rest →
        ¬ CompletedBy c pre header io mid header' cmpl) →
        parsed.latency = 0 ∧ parsed.error = false)

/-- While an IO waits for its completion, no other IO that stands in the queue under the same
id is pushed out, unless there is nothing to report of the completion. -/
def KeepsIds (c : Config) (events : List Event) : Prop :=
  ∀ pre header io mid header' cmpl rest,
    schedule c events = pre ++ .event ⟨header, .io io⟩ ::
      (mid ++ .event ⟨header', .ioCompletion cmpl⟩ :: rest) →
    CompletedBy c pre header io mid header' cmpl →
    (header'.timestamp = header.timestamp ∧ cmpl.error = false) ∨
      ∀ m₁ m₂, mid = m₁ ++ .pushOut :: m₂ →
        ∀ front ∈ (after c (pre ++ .event ⟨header, .io io⟩ :: m₁)).queue.head?,
          front.io.isSome → front.header.sid ≠ io.id

variable {c : Config} {s : ParsedIoTraceEventHandler} {events : List Event} {pre post : List Op}
  {header : EventHeader} {io : EventIo}

@[simp] theorem view_next : s.view.next = s.next := by simp [IoCache.next, next]

theorem after_append (ops ops' : List Op) :
    after c (ops ++ ops') = run (Op.apply c) ops' (after c ops) := run_append _ _ _ _

theorem view_after (ops : List Op) :
    (after c ops).view = run IoCache.Step.apply (ops.map (Op.step c)) .start := view_run ops

theorem consistent_after (ops : List Op) : (after c ops).view.Consistent := by
  rw [view_after]
  exact IoCache.consistent_start.after_run _

theorem after_schedule (c : Config) (events : List Event) :
    after c (schedule c events) = processEvents c events :=
  run_schedule events

theorem inside (hsub : c.subrangeEnd = 0) (lba len : ℕ) : isOutside c lba len = false := by
  simp [isOutside, hsub]

/-- When the queue is empty, what is said of a request is what the parent handler has got. -/
theorem handled_of_outcome {number latency : ℕ} {error : Bool} (hqueue : s.queue = [])
    (houtcome : s.view.outcome number = some (latency, error)) :
    ∃ event parsed, s.handled[number]? = some event ∧ event.io = some parsed ∧
      parsed.latency = latency ∧ parsed.error = error := by
  have hentry : s.view.entry number = none := by
    simp [IoCache.entry, hqueue]
  have hreported : s.view.reported[number]? = s.handled[number]?.map ParsedEvent.report :=
    List.getElem?_map
  unfold IoCache.outcome at houtcome
  rw [hentry, hreported] at houtcome
  cases hevent : s.handled[number]? with
  | none =>
    rw [hevent] at houtcome
    cases houtcome
  | some event =>
    cases hio : event.io with
    | none => simp [hevent, ParsedEvent.report, hio] at houtcome
    | some parsed =>
      simp only [hevent, ParsedEvent.report, hio, Option.map_some, Option.some.injEq,
        Prod.mk.injEq] at houtcome
      exact ⟨event, parsed, rfl, hio, houtcome.1, houtcome.2⟩

/-- The cache after an IO of a run. -/
theorem view_after_io (hsub : c.subrangeEnd = 0) (pre : List Op) (header : EventHeader)
    (io : EventIo) :
    (after c (pre ++ [.event ⟨header, .io io⟩])).view =
      (after c pre).view.submit header.timestamp header.sid io.id io.deviceId := by
  rw [after_append, run_cons, run_nil, view_apply]
  simp only [Op.step, eventStep, inside hsub]
  rfl

theorem ends_of_submits {op : Op} (hop : op.Submits io.id) (hsub : c.subrangeEnd = 0)
    (cache : IoCache) : IoCache.Ends io.id cache (op.step c) := by
  cases op with
  | event e =>
    obtain ⟨src, htype, hid⟩ := hop
    simp only [Op.step, eventStep, htype, inside hsub, Bool.false_eq_true, if_false]
    exact hid
  | pushOut => exact hop.elim

theorem ends_of_completes {op : Op} (hop : op.Completes io.id) (hsub : c.subrangeEnd = 0)
    (cache : IoCache) : IoCache.Ends io.id cache (op.step c) := by
  cases op with
  | event e =>
    obtain ⟨cmpl, htype, hid⟩ := hop
    simp only [Op.step, eventStep, htype, inside hsub, Bool.false_eq_true, if_false]
    exact hid
  | pushOut => exact hop.elim

theorem ends_pushOut_iff {id : ℕ} : IoCache.Ends id s.view .pushOut ↔
    ∃ front ∈ s.queue.head?, front.io.isSome ∧ front.header.sid = id := by
  unfold IoCache.Ends
  rw [view_queue]
  cases s.queue with
  | nil => simp
  | cons front queue =>
    cases hio : front.io with
    | none => simp [ParsedEvent.entry, hio]
    | some parsed => simp [ParsedEvent.entry, hio]

/-- Which steps take an id away, in terms of the handler. -/
theorem ends_cases {op : Op} (hends : IoCache.Ends io.id s.view (op.step c)) :
    op.Submits io.id ∨
      (∃ header' cmpl, op = .event ⟨header', .ioCompletion cmpl⟩ ∧ cmpl.refId = io.id) ∨
      op = .pushOut ∧ ∃ front ∈ s.queue.head?, front.io.isSome ∧ front.header.sid = io.id := by
  cases op with
  | event e =>
    obtain ⟨header', type⟩ := e
    cases type with
    | io src =>
      simp only [Op.step, eventStep] at hends
      split_ifs at hends
      · exact hends.elim
      · exact Or.inl ⟨src, rfl, hends⟩
    | ioCompletion cmpl =>
      simp only [Op.step, eventStep] at hends
      split_ifs at hends
      · exact hends.elim
      · exact Or.inr (Or.inl ⟨header', cmpl, rfl, hends⟩)
    | deviceDescription => exact hends.elim
    | filesystemMeta => exact hends.elim
    | filesystemFileName => exact hends.elim
    | filesystemFileEvent => exact hends.elim
    | notSet => exact hends.elim
  | pushOut => exact Or.inr (Or.inr ⟨rfl, ends_pushOut_iff.mp hends⟩)

theorem after_io_append (ops : List Op) :
    (after c (pre ++ .event ⟨header, .io io⟩ :: ops)).view =
      run IoCache.Step.apply (ops.map (Op.step c))
        (after c (pre ++ [.event ⟨header, .io io⟩])).view := by
  rw [← view_run, ← after_append, List.append_assoc]
  rfl

/-- An IO without an id is reported without completion. -/
theorem reported_without_id (hsub : c.subrangeEnd = 0) (hid : io.id = 0)
    (hschedule : schedule c events = pre ++ .event ⟨header, .io io⟩ :: post) :
    ∃ event parsed, (processEvents c events).handled[(after c pre).next]? = some event ∧
      event.io = some parsed ∧ parsed.latency = 0 ∧ parsed.error = false := by
  apply handled_of_outcome (processEvents_queue events)
  have hs := consistent_after (c := c) pre
  have hio := consistent_after (c := c) (pre ++ [.event ⟨header, .io io⟩])
  have hsubmit := view_after_io hsub pre header io
  have hfree : ∀ id, (after c (pre ++ [.event ⟨header, .io io⟩])).view.idMapping id ≠
      some (after c pre).view.next := by
    intro id hmapped
    have hold : (after c pre).view.idMapping id = some (after c pre).view.next := by
      simpa [hsubmit, IoCache.submit, hid] using hmapped
    exact (hs.number_lt hold).2.ne rfl
  rw [← after_schedule, hschedule, after_io_append, ← view_next,
    IoCache.outcome_run hio (by rw [hsubmit, IoCache.next_submit]; omega) hfree]
  rw [hsubmit] at hio ⊢
  exact IoCache.outcome_of_entry hio IoCache.entry_submit

/-- An IO with an id waits until the first step that takes the id away, and is reported with
what that step makes of it. -/
theorem reported_with_id (hsub : c.subrangeEnd = 0) (hid : io.id ≠ 0)
    (hschedule : schedule c events = pre ++ .event ⟨header, .io io⟩ :: post) :
    ∃ mid op rest, post = mid ++ op :: rest ∧
      (∀ m₁ x m₂, mid = m₁ ++ x :: m₂ → ¬ IoCache.Ends io.id
        (after c (pre ++ .event ⟨header, .io io⟩ :: m₁)).view (x.step c)) ∧
      IoCache.Ends io.id (after c (pre ++ .event ⟨header, .io io⟩ :: mid)).view (op.step c) ∧
      (after c (pre ++ .event ⟨header, .io io⟩ :: mid)).popped ≤ (after c pre).next ∧
      ∃ event parsed, (processEvents c events).handled[(after c pre).next]? = some event ∧
        event.io = some parsed ∧ parsed.latency = ((op.step c).result header.timestamp).1 ∧
        parsed.error = ((op.step c).result header.timestamp).2 := by
  have hs := consistent_after (c := c) (pre ++ [.event ⟨header, .io io⟩])
  have hsubmit := view_after_io hsub pre header io
  have hmapped : (after c (pre ++ [.event ⟨header, .io io⟩])).view.idMapping io.id =
      some (after c pre).view.next := by
    rw [hsubmit, IoCache.idMapping_submit hid]
  obtain ⟨request, hentry, htime⟩ : ∃ request,
      (after c (pre ++ [.event ⟨header, .io io⟩])).view.entry (after c pre).view.next =
        some request ∧ request.timestamp = header.timestamp := by
    rw [hsubmit]
    exact ⟨_, IoCache.entry_submit, rfl⟩
  have hend : (processEvents c events).view = run IoCache.Step.apply (post.map (Op.step c))
      (after c (pre ++ [.event ⟨header, .io io⟩])).view := by
    rw [← after_io_append, ← hschedule, after_schedule]
  rcases hs.fate hmapped hentry (post.map (Op.step c)) with hwaits | hmet
  · -- the queue is empty in the end
    rw [← hend] at hwaits
    have hconsistent : (processEvents c events).view.Consistent :=
      after_schedule c events ▸ consistent_after _
    have hlt := hconsistent.number_lt hwaits
    simp [IoCache.next, processEvents_queue] at hlt
    omega
  · obtain ⟨mid', step, rest', hsplit, hmid, hmapped', hends, houtcome⟩ := hmet
    obtain ⟨mid, tail, rfl, rfl, htail⟩ := List.map_eq_append_iff.mp hsplit
    obtain ⟨op, rest, rfl, rfl, rfl⟩ := List.map_eq_cons_iff.mp htail
    rw [← after_io_append] at hmapped' hends
    refine ⟨mid, op, rest, rfl, ?_, hends, ?_, ?_⟩
    · rintro m₁ x m₂ rfl hx
      rw [after_io_append] at hx
      exact hmid (m₁.map (Op.step c)) (x.step c) (m₂.map (Op.step c)) (by simp) hx
    · have hlt := ((consistent_after _).number_lt hmapped').1
      simpa using hlt
    · apply handled_of_outcome (processEvents_queue events)
      rw [hend, ← view_next, houtcome, htime]

/-- The step that takes the id away is the awaited completion, or what is reported is nothing. -/
theorem completedBy_of_ends (hsub : c.subrangeEnd = 0) {mid : List Op} {header' : EventHeader}
    {cmpl : EventIoCompletion} (hid : io.id ≠ 0)
    (hmid : ∀ m₁ x m₂, mid = m₁ ++ x :: m₂ → ¬ IoCache.Ends io.id
      (after c (pre ++ .event ⟨header, .io io⟩ :: m₁)).view (x.step c))
    (hcached : (after c (pre ++ .event ⟨header, .io io⟩ :: mid)).popped ≤ (after c pre).next)
    (hrefers : cmpl.refId = io.id) (hordered : header.timestamp ≤ header'.timestamp) :
    CompletedBy c pre header io mid header' cmpl where
  id_ne_zero := hid
  refers := hrefers
  first := by
    intro op hop hcompletes
    obtain ⟨m₁, m₂, rfl⟩ := List.append_of_mem hop
    exact hmid m₁ op m₂ rfl (ends_of_completes hcompletes hsub _)
  alone := by
    intro op hop hsubmits
    obtain ⟨m₁, m₂, rfl⟩ := List.append_of_mem hop
    exact hmid m₁ op m₂ rfl (ends_of_submits hsubmits hsub _)
  ordered := hordered
  cached := hcached

theorem matchesCompletions_of_keepsIds (hsub : c.subrangeEnd = 0) (hkeeps : KeepsIds c events) :
    MatchesCompletions c events := by
  intro pre header io post hschedule
  by_cases hid : io.id = 0
  · obtain ⟨event, parsed, hevent, hio, hreported⟩ := reported_without_id hsub hid hschedule
    exact ⟨event, parsed, hevent, hio,
      fun _ _ _ _ _ hcompleted => absurd hid hcompleted.id_ne_zero, fun _ => hreported⟩
  · obtain ⟨mid, op, rest, rfl, hmid, hends, hcached, event, parsed, hevent, hio, hlatency,
      herror⟩ := reported_with_id hsub hid hschedule
    refine ⟨event, parsed, hevent, hio, ?_, ?_⟩
    · intro mid' header' cmpl rest' hpost hcompleted
      have hcompletes : (Op.event ⟨header', .ioCompletion cmpl⟩).Completes io.id :=
        ⟨cmpl, rfl, hcompleted.refers⟩
      rcases split_cases hpost with ⟨rfl, rfl⟩ | ⟨zs, rfl⟩ | ⟨zs, rfl⟩
      · simp only [Op.step, eventStep, inside hsub, Bool.false_eq_true, if_false,
          IoCache.Step.result, if_pos hcompleted.ordered] at hlatency herror
        exact ⟨hlatency, herror⟩
      · -- the id is taken away before the completion comes
        rcases ends_cases hends with hsubmits | ⟨header₂, cmpl₂, rfl, hrefers⟩ | ⟨rfl, hfront⟩
        · exact absurd hsubmits (hcompleted.alone op (by simp))
        · exact absurd ⟨cmpl₂, rfl, hrefers⟩
            (hcompleted.first (.event ⟨header₂, .ioCompletion cmpl₂⟩) (by simp))
        · obtain ⟨front, hfront, hsome, hsid⟩ := hfront
          rcases hkeeps _ _ _ _ _ _ _ (by rw [hschedule, hpost]) hcompleted with hzero | hkept
          · rw [hlatency, herror, hzero.1, hzero.2]
            exact ⟨(Nat.sub_self _).symm, rfl⟩
          · exact absurd hsid (hkept mid zs rfl front hfront hsome)
      · exact absurd (ends_of_completes hcompletes hsub _) (hmid mid' _ zs rfl)
    · intro hnone
      rcases ends_cases hends with hsubmits | ⟨header', cmpl, rfl, hrefers⟩ | ⟨rfl, -⟩
      · obtain ⟨e, rfl⟩ : ∃ e, op = .event e := by
          cases op with
          | event e => exact ⟨e, rfl⟩
          | pushOut => exact hsubmits.elim
        obtain ⟨src, htype, -⟩ := hsubmits
        simp only [Op.step, eventStep, htype, inside hsub, Bool.false_eq_true, if_false,
          IoCache.Step.result] at hlatency herror
        exact ⟨hlatency, herror⟩
      · have hearly : ¬ header.timestamp ≤ header'.timestamp := fun hordered =>
          hnone mid header' cmpl rest rfl
            (completedBy_of_ends hsub hid hmid hcached hrefers hordered)
        simp only [Op.step, eventStep, inside hsub, Bool.false_eq_true, if_false,
          IoCache.Step.result, if_neg hearly] at hlatency herror
        exact ⟨hlatency, herror⟩
      · exact ⟨hlatency, herror⟩

theorem keepsIds_of_matchesCompletions (hsub : c.subrangeEnd = 0)
    (hmatches : MatchesCompletions c events) : KeepsIds c events := by
  intro pre header io mid' header' cmpl rest' hschedule hcompleted
  by_contra hlost
  push Not at hlost
  obtain ⟨hnonzero, m₁, m₂, rfl, front, hfront, hsome, hsid⟩ := hlost
  obtain ⟨event, parsed, hevent, hio, hclaimed, -⟩ := hmatches pre header io _ hschedule
  obtain ⟨mid, op, rest, hpost, hmid, hends, -, event', parsed', hevent', hio', hlatency,
    herror⟩ := reported_with_id hsub hcompleted.id_ne_zero hschedule
  obtain rfl : event = event' := by
    rw [hevent] at hevent'
    exact Option.some.inj hevent'
  obtain rfl : parsed = parsed' := by
    rw [hio] at hio'
    exact Option.some.inj hio'
  obtain ⟨hlatency', herror'⟩ := hclaimed _ _ _ _ rfl hcompleted
  -- the step that takes the id away is a push-out
  have hpush : op = .pushOut := by
    have hsplit : mid ++ op :: rest =
        m₁ ++ .pushOut :: (m₂ ++ .event ⟨header', .ioCompletion cmpl⟩ :: rest') := by
      rw [← hpost, List.append_assoc]
      rfl
    rcases split_cases hsplit with ⟨-, rfl⟩ | ⟨zs, rfl⟩ | ⟨zs, rfl⟩
    · rfl
    · rcases ends_cases hends with hsubmits | ⟨header₂, cmpl₂, rfl, hrefers⟩ | ⟨rfl, -⟩
      · exact absurd hsubmits (hcompleted.alone op (by simp))
      · exact absurd ⟨cmpl₂, rfl, hrefers⟩
          (hcompleted.first (.event ⟨header₂, .ioCompletion cmpl₂⟩) (by simp))
      · rfl
    · exact absurd (ends_pushOut_iff.mpr ⟨front, hfront, hsome, hsid⟩) (hmid m₁ _ zs rfl)
  subst hpush
  simp only [Op.step, IoCache.Step.result] at hlatency herror
  rw [hlatency] at hlatency'
  rw [herror] at herror'
  exact hnonzero (by have := hcompleted.ordered; omega) herror'.symm

/-- The reports match the completions exactly where no push-out of another event takes an id
away too early. -/
theorem matchesCompletions_iff (c : Config) (hsub : c.subrangeEnd = 0) (events : List Event) :
    MatchesCompletions c events ↔ KeepsIds c events :=
  ⟨keepsIds_of_matchesCompletions hsub, matchesCompletions_of_keepsIds hsub⟩

/-! ### An old event with the id of a new one -/

/-- Version 2 without paths, tags, subrange and trace extension. -/
def plain : Config := ⟨v2.version, fun _ _ => "", [], 0, 0, false⟩

def readOf (id : ℕ) : EventIo :=
  ⟨0, 8, 0, 0, .Read, false, false, 0, id, false, false, false⟩

def completionOf (id : ℕ) : EventIoCompletion := ⟨0, 8, false, 0, id⟩

theorem matchesCompletions_iff_small :
    MatchesCompletions plain
        [⟨⟨1, 1⟩, .io (readOf 7)⟩, ⟨⟨2, 3⟩, .ioCompletion (completionOf 7)⟩] ↔
      KeepsIds plain [⟨⟨1, 1⟩, .io (readOf 7)⟩, ⟨⟨2, 3⟩, .ioCompletion (completionOf 7)⟩] :=
  matchesCompletions_iff plain rfl _

/-- An IO only lengthens the queue. -/
theorem acceptEvent_io (hsub : c.subrangeEnd = 0) (s : ParsedIoTraceEventHandler)
    (header : EventHeader) (io : EventIo) : ∃ event,
    (s.acceptEvent c ⟨header, .io io⟩).queue = s.queue ++ [event] ∧
      (s.acceptEvent c ⟨header, .io io⟩).limit = s.limit ∧
      (s.acceptEvent c ⟨header, .io io⟩).popped = s.popped := by
  have hnote : (s.noteTimestamp ⟨header, .io io⟩).queue = s.queue ∧
      (s.noteTimestamp ⟨header, .io io⟩).limit = s.limit ∧
      (s.noteTimestamp ⟨header, .io io⟩).popped = s.popped := by
    unfold noteTimestamp
    split_ifs <;> exact ⟨rfl, rfl, rfl⟩
  have htouch : ∀ s : ParsedIoTraceEventHandler, (s.touchDevice io.deviceId).limit = s.limit := by
    intro s
    unfold touchDevice
    split_ifs <;> rfl
  simp only [acceptEvent, acceptIo, inside hsub, Bool.false_eq_true, if_false, addMapping]
  split_ifs
  all_goals exact ⟨_, by rw [emplace, touchDevice_queue, hnote.1], by
    rw [emplace, htouch, hnote.2.1], by rw [emplace, touchDevice_popped, hnote.2.2]⟩

/-- Behind an IO the queue is not flushed. -/
theorem eventsOps_io (events : List Event) :
    eventsOps c (⟨header, .io io⟩ :: events) s =
      .event ⟨header, .io io⟩ :: eventsOps c events (s.acceptEvent c ⟨header, .io io⟩) := rfl

theorem eventsOps_replicate (n : ℕ) (events : List Event) :
    eventsOps c (List.replicate n ⟨header, .io io⟩ ++ events) s =
      List.replicate n (.event ⟨header, .io io⟩) ++ eventsOps c events
        (run (Op.apply c) (List.replicate n (.event ⟨header, .io io⟩)) s) := by
  induction n generalizing s with
  | zero => rfl
  | succ n ih =>
    rw [List.replicate_succ, List.cons_append, eventsOps_io, ih]
    rfl

theorem run_replicate (hsub : c.subrangeEnd = 0) (n : ℕ) (s : ParsedIoTraceEventHandler)
    (header : EventHeader) (io : EventIo) : ∃ queue, queue.length = n ∧
    (run (Op.apply c) (List.replicate n (.event ⟨header, .io io⟩)) s).queue =
      s.queue ++ queue ∧
    (run (Op.apply c) (List.replicate n (.event ⟨header, .io io⟩)) s).limit = s.limit ∧
    (run (Op.apply c) (List.replicate n (.event ⟨header, .io io⟩)) s).popped = s.popped := by
  induction n generalizing s with
  | zero => exact ⟨[], rfl, (List.append_nil _).symm, rfl, rfl⟩
  | succ n ih =>
    obtain ⟨event, hqueue, hlimit, hpopped⟩ := acceptEvent_io hsub s header io
    obtain ⟨queue, hlength, hrun, hlimit', hpopped'⟩ := ih (s.acceptEvent c ⟨header, .io io⟩)
    refine ⟨event :: queue, by simp [hlength], ?_, hlimit'.trans hlimit, hpopped'.trans hpopped⟩
    rw [List.replicate_succ, run_cons, Op.apply, hrun, hqueue, List.append_assoc]
    rfl

/-- A full queue whose front waits for its completion loses the front only. -/
theorem flushOps_full {front : ParsedEvent} {queue : List ParsedEvent}
    (hqueue : s.queue = front :: queue) (hfront : front.latency = 0)
    (hlimit : s.queue.length = s.limit) : s.flushOps c false = [.pushOut] := by
  have hlength : s.queue.length = queue.length + 1 := by simp [hqueue]
  have hcompleted : s.completedOps c s.queue.length = [] ∧
      s.flushCompleted c s.queue.length = s := by
    rw [hlength]
    simp [completedOps, flushCompleted, hqueue, hfront]
  have hshort : (s.pushOutEvent c).queue.length < (s.pushOutEvent c).limit := by
    have hsame : (s.pushOutEvent c).limit = s.limit := by
      simp only [pushOutEvent, hqueue, delMapping]
      split_ifs <;> rfl
    rw [pushOutEvent_length, hsame]
    omega
  have hrest : s.restOps c false s.queue.length = [.pushOut] := by
    rw [hlength]
    simp [restOps, hqueue, hshort]
  have hfull : ¬ s.queue.length < s.limit := hlimit.not_lt
  simp only [flushOps, hcompleted.1, hcompleted.2, hfull, false_and, if_false, hrest,
    List.nil_append]

/-- The first two of the events below. -/
def staleStart : List Op :=
  [.event ⟨⟨1, 1⟩, .io (readOf 7)⟩, .event ⟨⟨2, 1⟩, .io (readOf 7)⟩]

/-- Two IOs with one id, more IOs that fill the queue, a completion without an IO, and the
completion of the id. -/
def staleEvents (fill : ℕ) : List Event :=
  ⟨⟨1, 1⟩, .io (readOf 7)⟩ :: ⟨⟨2, 1⟩, .io (readOf 7)⟩ ::
    (List.replicate fill ⟨⟨3, 1⟩, .io (readOf 0)⟩ ++
      [⟨⟨4, 2⟩, .ioCompletion (completionOf 0)⟩, ⟨⟨5, 3⟩, .ioCompletion (completionOf 7)⟩])

/-- The steps that fill the queue. -/
def fillOps (fill : ℕ) : List Op := List.replicate fill (.event ⟨⟨3, 1⟩, .io (readOf 0)⟩)

/-- The steps between the second IO and the push-out. -/
def staleOps (fill : ℕ) : List Op :=
  fillOps fill ++ [.event ⟨⟨4, 2⟩, .ioCompletion (completionOf 0)⟩]

/-- An id of zero refers to nothing. -/
theorem acceptEvent_completion_zero (hs : s.view.Consistent) (header : EventHeader) :
    (s.acceptEvent plain ⟨header, .ioCompletion (completionOf 0)⟩).queue = s.queue ∧
      (s.acceptEvent plain ⟨header, .ioCompletion (completionOf 0)⟩).limit = s.limit ∧
      (s.acceptEvent plain ⟨header, .ioCompletion (completionOf 0)⟩).popped = s.popped := by
  have hzero : s.idMapping 0 = none := by
    rw [Option.eq_none_iff_forall_ne_some]
    intro number hmapped
    exact (hs.mapped hmapped).1 rfl
  simp only [acceptEvent, inside (c := plain) rfl, Bool.false_eq_true, if_false]
  unfold noteTimestamp
  split_ifs
  · simp [acceptIoCompletion, getCachedEventById, completionOf, hzero]
  · simp [acceptIoCompletion, getCachedEventById, completionOf, hzero]

variable (fill : ℕ)

theorem after_staleOps_eq : after plain (staleStart ++ staleOps fill) =
    (after plain (staleStart ++ fillOps fill)).acceptEvent plain
      ⟨⟨4, 2⟩, .ioCompletion (completionOf 0)⟩ := by
  rw [staleOps, ← List.append_assoc, after_append]
  rfl

/-- Behind these steps the first IO is still in front. -/
theorem after_staleOps : ∃ front queue,
    (after plain (staleStart ++ staleOps fill)).queue = front :: queue ∧ front.latency = 0 ∧
      front.io.isSome ∧ front.header.sid = 7 ∧ queue.length = fill + 1 ∧
      (after plain (staleStart ++ staleOps fill)).limit = QueueLimit ∧
      (after plain (staleStart ++ staleOps fill)).popped = 0 := by
  obtain ⟨first, second, hqueue, hlatency, hio, hsid, hlimit, hpopped⟩ : ∃ first second,
      (after plain staleStart).queue = [first, second] ∧ first.latency = 0 ∧ first.io.isSome ∧
      first.header.sid = 7 ∧ (after plain staleStart).limit = QueueLimit ∧
      (after plain staleStart).popped = 0 := ⟨_, _, rfl, rfl, rfl, rfl, rfl, rfl⟩
  obtain ⟨queue, hlength, hrun, hlimit', hpopped'⟩ :=
    run_replicate (c := plain) rfl fill (after plain staleStart) ⟨3, 1⟩ (readOf 0)
  rw [← fillOps, ← after_append] at hrun hlimit' hpopped'
  obtain ⟨hqueue₂, hlimit₂, hpopped₂⟩ :=
    acceptEvent_completion_zero (consistent_after (staleStart ++ fillOps fill)) ⟨4, 2⟩
  rw [after_staleOps_eq]
  refine ⟨first, second :: queue, ?_, hlatency, hio, hsid, ?_, ?_, ?_⟩
  · rw [hqueue₂, hrun, hqueue]
    rfl
  · rw [List.length_cons, hlength]
  · rw [hlimit₂, hlimit', hlimit]
  · rw [hpopped₂, hpopped', hpopped]

theorem schedule_staleEvents (hfill : fill + 2 = QueueLimit) :
    ∃ rest, schedule plain (staleEvents fill) =
      [.event ⟨⟨1, 1⟩, .io (readOf 7)⟩] ++ .event ⟨⟨2, 1⟩, .io (readOf 7)⟩ ::
        ((staleOps fill ++ [.pushOut]) ++
          .event ⟨⟨5, 3⟩, .ioCompletion (completionOf 7)⟩ :: rest) := by
  obtain ⟨front, queue, hqueue, hlatency, -, -, hlength, hlimit, -⟩ := after_staleOps fill
  have hflush := flushOps_full (c := plain) hqueue hlatency (by
    rw [hqueue, hlimit, ← hfill, List.length_cons, hlength])
  have hops : eventsOps plain (staleEvents fill) init = staleStart ++ (fillOps fill ++
      eventsOps plain
        [⟨⟨4, 2⟩, .ioCompletion (completionOf 0)⟩, ⟨⟨5, 3⟩, .ioCompletion (completionOf 7)⟩]
        (after plain (staleStart ++ fillOps fill))) := by
    rw [staleEvents, eventsOps_io, eventsOps_io, eventsOps_replicate, after_append]
    rfl
  have hcompletions : ∀ s, ∃ rest, eventsOps plain
      [⟨⟨4, 2⟩, .ioCompletion (completionOf 0)⟩, ⟨⟨5, 3⟩, .ioCompletion (completionOf 7)⟩] s =
      .event ⟨⟨4, 2⟩, .ioCompletion (completionOf 0)⟩ ::
        ((s.acceptEvent plain ⟨⟨4, 2⟩, .ioCompletion (completionOf 0)⟩).flushOps plain false ++
          .event ⟨⟨5, 3⟩, .ioCompletion (completionOf 7)⟩ :: rest) := fun s => ⟨_, rfl⟩
  obtain ⟨rest, hrest⟩ := hcompletions (after plain (staleStart ++ fillOps fill))
  rw [← after_staleOps_eq, hflush] at hrest
  refine ⟨rest ++ (handleEvents plain (staleEvents fill) init).flushOps plain true, ?_⟩
  rw [schedule, hops, hrest, staleOps, staleStart]
  simp only [List.append_assoc, List.cons_append, List.nil_append]

theorem not_matchesCompletions_of_full (hfill : fill + 2 = QueueLimit) :
    ¬ MatchesCompletions plain (staleEvents fill) := by
  intro hmatches
  obtain ⟨rest, hschedule⟩ := schedule_staleEvents fill hfill
  obtain ⟨front, queue, hqueue, -, hio, hsid, -, -, hpopped⟩ := after_staleOps fill
  have hstart : [.event ⟨⟨1, 1⟩, .io (readOf 7)⟩] ++
      .event ⟨⟨2, 1⟩, .io (readOf 7)⟩ :: staleOps fill = staleStart ++ staleOps fill := by
    simp [staleStart]
  have hmid : ∀ op ∈ staleOps fill ++ [.pushOut], ¬ op.Completes 7 ∧ ¬ op.Submits 7 := by
    intro op hop
    rw [staleOps, List.mem_append, List.mem_append, List.mem_singleton, List.mem_singleton] at hop
    rcases hop with (hfill | rfl) | rfl
    · rw [List.eq_of_mem_replicate hfill]
      simp [Op.Completes, Op.Submits, readOf]
    · simp [Op.Completes, Op.Submits, completionOf]
    · simp [Op.Completes, Op.Submits]
  have hcompleted : CompletedBy plain [.event ⟨⟨1, 1⟩, .io (readOf 7)⟩] ⟨2, 1⟩ (readOf 7)
      (staleOps fill ++ [.pushOut]) ⟨5, 3⟩ (completionOf 7) := by
    refine ⟨by decide, rfl, fun op hop => (hmid op hop).1, fun op hop => (hmid op hop).2,
      by decide, ?_⟩
    rw [← List.cons_append, ← List.append_assoc, hstart, after_append]
    simp only [run_cons, run_nil, Op.apply, pushOutEvent, hqueue, delMapping]
    rw [if_pos hio, hpopped]
    decide
  rcases keepsIds_of_matchesCompletions rfl hmatches _ _ _ _ _ _ _ hschedule hcompleted with
    hzero | hkept
  · exact absurd hzero.1 (by decide)
  · refine hkept (staleOps fill) [] rfl front ?_ hio hsid
    rw [hstart, hqueue]
    rfl

/-- With a full queue behind it the second IO is reported without its completion. -/
theorem matchesCompletions_stale : ¬ MatchesCompletions plain (staleEvents (QueueLimit - 2)) :=
  not_matchesCompletions_of_full _ (by norm_num [QueueLimit])

end ParsedIoTraceEventHandler

end Octf.Parser
