import Octf.Foundation.Run

/-! The queue between the thread that parses a trace and the thread that consumes its events.
A semaphore counts the free slots, a mutex and a condition guard the queue. A step is what a thread
does between two points where the other one may come in. -/
namespace Octf.Parser.ParsedIoTraceEventQueue

def QUEUE_LIMIT : ℕ := 1000

/-- Where the parsing thread is. -/
inductive ParserPc (E : Type) where
  /-- In the base class, before the next event, the end or an exception. -/
  | parsing
  | checkCancel (io : E)
  | waitLimit (io : E)
  | lockQueue (io : E)
  -- the next three hold the lock
  | emplace (io : E)
  | notifyEvent
  | unlockEvent
  | lockFinish
  -- the next three hold the lock
  | setFinished
  | notifyFinish
  | unlockFinish
  | catchException (message : String)
  | ended
  deriving DecidableEq

inductive Operation where
  | empty
  | front
  | pop
  deriving DecidableEq

/-- Where the consuming thread is. -/
inductive ConsumerPc where
  | idle
  | checkException (op : Operation)
  | lockQueue (op : Operation)
  /-- Holds the lock and tests the condition of the wait. -/
  | test (op : Operation)
  | asleep (op : Operation)
  -- the next three hold the lock
  | perform (op : Operation)
  | popQueue
  | unlock
  -- the destructors of the queue and of its parser
  | setCancel
  | postCancel
  | join
  | cancelAgain
  | destroyed
  deriving DecidableEq

/-- What an operation has returned. -/
inductive Returned (E : Type) where
  | empty (value : Bool)
  | event (io : E)
  | thrown (message : String)
  deriving DecidableEq

structure State (E : Type) where
  queue : List E
  finished : Bool
  cancelRequested : Bool
  /-- The semaphore. -/
  queueLimit : ℕ
  exception : String
  parser : ParserPc E
  consumer : ConsumerPc
  returned : Option (Returned E)
  /-- The events handled so far, and those popped so far. -/
  handled : List E
  popped : List E

inductive Action (E : Type) where
  -- what the base class does next
  | handle (io : E)
  | finish
  | fail (message : String)
  | parser
  -- what the user of the queue does next
  | call (op : Operation)
  | destroy
  | consumer
  /-- The condition's wait may return without a notification. -/
  | wake

namespace State

variable {E : Type}

def init : State E := ⟨[], false, false, QUEUE_LIMIT, "", .parsing, .idle, none, [], []⟩

/-- The parsing thread holds the queue's lock. -/
def ParserLocks (s : State E) : Bool :=
  match s.parser with
  | .emplace _ | .notifyEvent | .unlockEvent | .setFinished | .notifyFinish | .unlockFinish => true
  | _ => false

/-- The consuming thread holds the queue's lock. -/
def ConsumerLocks (s : State E) : Bool :=
  match s.consumer with
  | .test _ | .perform _ | .popQueue | .unlock => true
  | _ => false

/-- `m_eventInQueue.notify_one()`: a thread that sleeps goes for the lock. -/
def notifyOne (s : State E) : State E :=
  match s.consumer with
  | .asleep op => { s with consumer := .lockQueue op }
  | _ => s

/-- The next step of the parsing thread. -/
def parserStep (s : State E) : State E :=
  match s.parser with
  | .parsing | .ended => s
  | .checkCancel io =>
    if s.cancelRequested then { s with parser := .parsing } else { s with parser := .waitLimit io }
  | .waitLimit io =>
    if s.queueLimit = 0 then s
    else { s with queueLimit := s.queueLimit - 1, parser := .lockQueue io }
  | .lockQueue io => if s.ConsumerLocks then s else { s with parser := .emplace io }
  | .emplace io => { s with queue := s.queue ++ [io], parser := .notifyEvent }
  | .notifyEvent => { s.notifyOne with parser := .unlockEvent }
  | .unlockEvent => { s with parser := .parsing }
  | .lockFinish => if s.ConsumerLocks then s else { s with parser := .setFinished }
  | .setFinished => { s with finished := true, parser := .notifyFinish }
  | .notifyFinish => { s.notifyOne with parser := .unlockFinish }
  | .unlockFinish => { s with parser := .ended }
  | .catchException message => { s with exception := message, parser := .ended }

/-- An operation that has found an event or the end. -/
def perform (op : Operation) (s : State E) : State E :=
  match op with
  | .empty =>
    { s with returned := some (.empty (s.finished && s.queue.isEmpty)), consumer := .unlock }
  | .front =>
    match s.queue with
    | [] =>
      { s with returned := some (.thrown "Accessing empty parsed IO queue"), consumer := .unlock }
    | io :: _ => { s with returned := some (.event io), consumer := .unlock }
  | .pop =>
    match s.queue with
    | [] =>
      { s with returned := some (.thrown "Trying pop empty parsed IO queue"), consumer := .unlock }
    | _ :: _ => { s with queueLimit := s.queueLimit + 1, consumer := .popQueue }

/-- An operation returns at once, or it is a `pop` that has found an event. -/
theorem perform_cases (op : Operation) (s : State E) :
    (∃ returned, s.perform op = { s with returned := returned, consumer := .unlock }) ∨
      s.queue ≠ [] ∧ s.perform op =
        { s with queueLimit := s.queueLimit + 1, consumer := .popQueue } := by
  unfold perform
  cases op with
  | empty => exact Or.inl ⟨_, rfl⟩
  | front =>
    left
    cases s.queue with
    | nil => exact ⟨_, rfl⟩
    | cons io queue => exact ⟨_, rfl⟩
  | pop =>
    cases hqueue : s.queue with
    | nil => exact Or.inl ⟨_, rfl⟩
    | cons io queue => exact Or.inr ⟨List.cons_ne_nil io queue, rfl⟩

/-- The next step of the consuming thread. -/
def consumerStep (s : State E) : State E :=
  match s.consumer with
  | .idle | .asleep _ | .destroyed => s
  | .checkException op =>
    if s.exception = "" then { s with consumer := .lockQueue op }
    else { s with returned := some (.thrown s.exception), consumer := .idle }
  | .lockQueue op => if s.ParserLocks then s else { s with consumer := .test op }
  | .test op =>
    if s.queue ≠ [] ∨ s.finished then { s with consumer := .perform op }
    else { s with consumer := .asleep op }
  | .perform op => s.perform op
  | .popQueue =>
    { s with queue := s.queue.tail, popped := s.popped ++ s.queue.take 1, consumer := .unlock }
  | .unlock => { s with consumer := .idle }
  | .setCancel => { s with cancelRequested := true, consumer := .postCancel }
  | .postCancel => { s with queueLimit := s.queueLimit + 1, consumer := .join }
  | .join =>
    match s.parser with
    | .ended => { s with consumer := .cancelAgain }
    | _ => s
  | .cancelAgain =>
    { s with cancelRequested := true, queueLimit := s.queueLimit + 1, consumer := .destroyed }

/-- What a thread does next on its own, where it is free to choose. -/
def parserChoice (pc : ParserPc E) (handled : List E) (s : State E) : State E :=
  match s.parser with
  | .parsing => { s with parser := pc, handled := s.handled ++ handled }
  | _ => s

def consumerChoice (pc : ConsumerPc) (s : State E) : State E :=
  match s.consumer with
  | .idle => { s with consumer := pc }
  | _ => s

def step (action : Action E) (s : State E) : State E :=
  match action with
  | .handle io => s.parserChoice (.checkCancel io) [io]
  | .finish => s.parserChoice .lockFinish []
  | .fail message => s.parserChoice (.catchException message) []
  | .parser => s.parserStep
  | .call op => s.consumerChoice (.checkException op)
  | .destroy => s.consumerChoice .setCancel
  | .consumer => s.consumerStep
  | .wake => s.notifyOne

end State

end Octf.Parser.ParsedIoTraceEventQueue
