import Octf.Foundation.Run
import Octf.Parser.ParsedIoTraceEventHandler

/-! The run of a handler as single steps: events of the trace, and events pushed out of the
queue where `flushEvents` does so. -/
namespace Octf.Parser
open Foundation

namespace ParsedIoTraceEventHandler

inductive Op where
  | event (event : Event)
  | pushOut

variable (c : Config)

def Op.apply : Op → ParsedIoTraceEventHandler → ParsedIoTraceEventHandler
  | .event e, s => s.acceptEvent c e
  | .pushOut, s => s.pushOutEvent c

/-- The steps of `flushCompleted`. -/
def completedOps : (rounds : ℕ) → ParsedIoTraceEventHandler → List Op
  | 0, _ => []
  | rounds + 1, s =>
    match s.queue with
    | [] => []
    | event :: _ =>
      if event.latency ≠ 0 then .pushOut :: completedOps rounds (s.pushOutEvent c) else []

/-- The steps of `flushRest`. -/
def restOps (isFinished : Bool) : (rounds : ℕ) → ParsedIoTraceEventHandler → List Op
  | 0, _ => []
  | rounds + 1, s =>
    match s.queue with
    | [] => []
    | _ :: _ =>
      let s := s.pushOutEvent c
      .pushOut :: (if isFinished = false ∧ s.queue.length < s.limit then []
        else restOps isFinished rounds s)

/-- The steps of `flushEvents`. -/
def flushOps (isFinished : Bool) (s : ParsedIoTraceEventHandler) : List Op :=
  let completed := s.completedOps c s.queue.length
  let s := s.flushCompleted c s.queue.length
  completed ++ (if s.queue.length < s.limit ∧ isFinished = false then []
    else s.restOps c isFinished s.queue.length)

/-- The steps of `handleEvent`. -/
def eventOps (isFinished : Bool) (event : Event) (s : ParsedIoTraceEventHandler) : List Op :=
  .event event ::
    (if flushesAfter c event then (s.acceptEvent c event).flushOps c isFinished else [])

/-- The steps of `handleEvents`. -/
def eventsOps : List Event → ParsedIoTraceEventHandler → List Op
  | [], _ => []
  | event :: events, s =>
    s.eventOps c events.isEmpty event ++ eventsOps events (s.handleEvent c events.isEmpty event)

/-- The steps of `processEvents`. -/
def schedule (events : List Event) : List Op :=
  eventsOps c events init ++ (handleEvents c events init).flushOps c true

variable {c} {s : ParsedIoTraceEventHandler} {isFinished : Bool} {rounds : ℕ}

theorem run_completedOps :
    run (Op.apply c) (s.completedOps c rounds) s = s.flushCompleted c rounds := by
  induction rounds generalizing s with
  | zero => rfl
  | succ rounds ih =>
    cases hqueue : s.queue with
    | nil => simp only [completedOps, flushCompleted, hqueue, run_nil]
    | cons event queue =>
      simp only [completedOps, flushCompleted, hqueue]
      split_ifs
      · exact ih
      · rfl

theorem run_restOps :
    run (Op.apply c) (s.restOps c isFinished rounds) s = s.flushRest c isFinished rounds := by
  induction rounds generalizing s with
  | zero => rfl
  | succ rounds ih =>
    cases hqueue : s.queue with
    | nil => simp only [restOps, flushRest, hqueue, run_nil]
    | cons event queue =>
      simp only [restOps, flushRest, hqueue, run_cons, Op.apply]
      split_ifs
      · rfl
      · exact ih

theorem run_flushOps : run (Op.apply c) (s.flushOps c isFinished) s =
    s.flushEvents c isFinished := by
  simp only [flushOps, flushEvents, run_append, run_completedOps]
  split_ifs
  · rfl
  · exact run_restOps

theorem run_eventOps (event : Event) :
    run (Op.apply c) (s.eventOps c isFinished event) s = s.handleEvent c isFinished event := by
  simp only [eventOps, handleEvent, run_cons, Op.apply]
  split_ifs
  · exact run_flushOps
  · rfl

theorem run_eventsOps (events : List Event) :
    run (Op.apply c) (s.eventsOps c events) s = s.handleEvents c events := by
  induction events generalizing s with
  | nil => rfl
  | cons event events ih =>
    simp only [eventsOps, handleEvents, run_append, run_eventOps]
    exact ih

/-- Parsing a trace is a run of its steps. -/
theorem run_schedule (events : List Event) :
    run (Op.apply c) (schedule c events) init = processEvents c events := by
  rw [schedule, run_append, run_eventsOps, run_flushOps, processEvents]

theorem pushOutEvent_length : (s.pushOutEvent c).queue.length = s.queue.length - 1 := by
  unfold pushOutEvent
  split
  · next hqueue => rw [hqueue]; rfl
  · next hqueue => rw [hqueue]; rfl

theorem flushRest_queue (hrounds : s.queue.length ≤ rounds) :
    (s.flushRest c true rounds).queue = [] := by
  induction rounds generalizing s with
  | zero => exact List.length_eq_zero_iff.mp (Nat.le_zero.mp hrounds)
  | succ rounds ih =>
    unfold flushRest
    split
    · assumption
    · apply ih
      rw [pushOutEvent_length]
      omega

/-- The last flush empties the queue. -/
theorem processEvents_queue (events : List Event) : (processEvents c events).queue = [] := by
  unfold processEvents flushEvents
  simp only [Bool.true_eq_false, and_false, if_false]
  exact flushRest_queue le_rfl

end ParsedIoTraceEventHandler

end Octf.Parser
