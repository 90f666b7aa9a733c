import Octf.Foundation.Run
import Octf.Interface.TraceJob
import Octf.Parser.TraceFileParser
import Octf.Storage.FileTraceSerializer

/-! A tracing session from the start of its handler thread on: the handler, the threads of the
jobs, and any number of threads that ask for the state. A turn is one atomic access of the
manager's state, of a job's state or of the summary file. Opening, writing and changing the mode
of the summary succeed where its mode allows it. -/
namespace Octf.Interface
open Foundation Octf.Parser Octf.Storage

/-- `fillTraceSummary` -/
def TracingState.toProto : TracingState → TraceState
  | .undefined => .UNDEFINED
  | .notStarted => .NOT_STARTED
  | .initializing => .INITIALIZING
  | .running => .RUNNING
  | .complete => .COMPLETE
  | .error => .ERROR

/-! ### The thread of a job -/

/-- What the job's thread does next in `doWork`. -/
inductive JobPc where
  /-- `m_state = TracingState::RUNNING` -/
  | start
  /-- `consumeTraces()` -/
  | consumeTraces
  /-- `m_state = endState` -/
  | publish (endState : TracingState)
  /-- `m_serializer->close()` -/
  | close
  | ended
  deriving DecidableEq

structure JobThread where
  state : TracingState
  pc : JobPc
  serializer : FileTraceSerializer
  /-- what `close()` has returned -/
  closed : Option Bool

namespace JobThread

def create (serializer : FileTraceSerializer) : JobThread := ⟨.notStarted, .start, serializer, none⟩

/-- What the thread meets: whether `consumeTraces` throws, the serializer it leaves behind, and
the answers of the operating system. -/
structure Choice where
  throws : Bool
  serializer : FileTraceSerializer
  ops : FileOps

def doWork (choice : Choice) (job : JobThread) : JobThread :=
  match job.pc with
  | .start => { job with state := .running, pc := .consumeTraces }
  | .consumeTraces =>
    { job with
      serializer := { choice.serializer with isOpen := true }
      pc := .publish (if choice.throws then .error else .complete) }
  | .publish endState => { job with state := endState, pc := .close }
  | .close =>
    -- the result is ignored
    let (result, serializer) := job.serializer.close choice.ops
    { job with serializer := serializer, closed := some result, pc := .ended }
  | .ended => job

end JobThread

/-! ### Updates of the state -/

/-- What `updateState` has found in the jobs. -/
structure Found where
  foundRunningState : Bool
  foundErrorState : Bool
  allFinished : Bool
  deriving DecidableEq

namespace Found

def init : Found := ⟨false, false, true⟩

def see (state : TracingState) (found : Found) : Found :=
  match state with
  | .notStarted => { found with allFinished := false }
  | .running => { found with foundRunningState := true, allFinished := false }
  | .error => { found with foundErrorState := true }
  | _ => found

def result (jobCount : ℕ) (found : Found) : TracingState :=
  if found.foundRunningState then .running
  else if found.allFinished ∧ found.foundErrorState then .error
  else if found.allFinished ∧ 0 < jobCount then .complete
  else .notStarted

end Found

/-- What a thread does next in `getState`, `updateState` or `setState`. -/
inductive UpdatePc where
  | idle
  /-- `if (m_state == TracingState::RUNNING)` -/
  | testRunning
  /-- `switch (job->getState())` -/
  | readJob (index : ℕ) (found : Found)
  /-- `m_state = state` -/
  | store (state : TracingState)
  /-- `openFileToWrite` of the summary -/
  | openSummary (state : TracingState)
  /-- `ftruncate` of the summary -/
  | truncateSummary (state : TracingState)
  /-- and its `write` -/
  | writeSummary (state : TracingState)
  /-- the summary was not written: `m_state = TracingState::ERROR` -/
  | storeError
  /-- `if (m_state == TracingState::ERROR` -/
  | testError
  /-- `|| m_state == TracingState::COMPLETE)` -/
  | testComplete
  /-- `makeReadOnly`, which the owner of the file may do -/
  | makeReadOnly
  /-- `return m_state.load()` -/
  | load
  deriving DecidableEq

/-! ### The session -/

/-- What the handler does next, once it is in no `setState` or `updateState`. -/
inductive HandlerPc where
  /-- create and start the job -/
  | setupJob (index : ℕ)
  /-- `waitForJobInitialization` -/
  | waitJob (index : ℕ)
  | startTrace
  /-- `while (!m_finish)` -/
  | sleep
  | stopTrace
  /-- stop the jobs and join them -/
  | joinJobs
  | ended
  deriving DecidableEq

/-- The session; the handler is the thread `none`, the others ask for the state. -/
structure TraceManager (Q : Type) where
  state : TracingState
  jobs : List JobThread
  /-- what was written to the summary file since it was emptied, the last first: its text stands at
  the front, and what longer texts leave stands behind it -/
  summary : List TraceSummary
  /-- the summary file is read only -/
  readOnly : Bool
  updates : Option Q → UpdatePc
  answers : Q → TracingState
  handler : HandlerPc
  /-- starting or stopping has failed -/
  failed : Bool

inductive SessionAction (Q : Type) where
  /-- the handler goes on; what it calls succeeds or not -/
  | handler (succeeds : Bool)
  | job (index : ℕ) (choice : JobThread.Choice)
  | getState (thread : Q)
  /-- a thread in `getState` goes on -/
  | thread (thread : Q)

namespace TraceManager

variable {Q : Type} [DecidableEq Q]

/-- After `startJobs` has set the state and started the handler. -/
def init : TraceManager Q where
  state := .initializing
  jobs := []
  summary := [⟨.INITIALIZING, 0⟩]
  readOnly := false
  updates _ := .idle
  answers _ := .initializing
  handler := .setupJob 0
  failed := false

def goTo (caller : Option Q) (pc : UpdatePc) (s : TraceManager Q) : TraceManager Q :=
  { s with updates := Function.update s.updates caller pc }

/-- `updateState` or `setState` returns. -/
def ret (caller : Option Q) (s : TraceManager Q) : TraceManager Q :=
  s.goTo caller (if caller.isSome then .load else .idle)

/-- A thread goes on in `getState`, `updateState` or `setState`. -/
def turn (caller : Option Q) (s : TraceManager Q) : TraceManager Q :=
  match s.updates caller with
  | .idle => s
  | .testRunning =>
    if s.state = .running then s.goTo caller (.readJob 0 .init) else s.ret caller
  | .readJob index found =>
    match s.jobs[index]? with
    | some job => s.goTo caller (.readJob (index + 1) (found.see job.state))
    | none => s.goTo caller (.store (found.result s.jobs.length))
  | .store state => ({ s with state := state } : TraceManager Q).goTo caller (.openSummary state)
  | .openSummary state =>
    if s.readOnly then s.goTo caller .storeError else s.goTo caller (.truncateSummary state)
  | .truncateSummary state =>
    ({ s with summary := [] } : TraceManager Q).goTo caller (.writeSummary state)
  | .writeSummary state =>
    ({ s with summary := ⟨state.toProto, s.jobs.length⟩ :: s.summary } : TraceManager Q).goTo caller
      .testError
  | .storeError => ({ s with state := .error } : TraceManager Q).goTo caller .testError
  | .testError =>
    if s.state = .error then s.goTo caller .makeReadOnly else s.goTo caller .testComplete
  | .testComplete => if s.state = .complete then s.goTo caller .makeReadOnly else s.ret caller
  | .makeReadOnly => ({ s with readOnly := true } : TraceManager Q).ret caller
  | .load =>
    ({ s with answers := fun q => if some q = caller then s.state else s.answers q } :
      TraceManager Q).goTo caller .idle

/-- An exception of the handler: `setState(TracingState::ERROR)` -/
def throw (s : TraceManager Q) : TraceManager Q :=
  ({ s with failed := true, handler := .joinJobs } : TraceManager Q).goTo none (.store .error)

/-- The handler goes on in `handleJobs`, with one job for each of `numberOfJobs` output files. -/
def handleJobs (numberOfJobs : ℕ) (output : ℕ → FileTraceSerializer) (succeeds : Bool)
    (s : TraceManager Q) : TraceManager Q :=
  match s.handler with
  | .setupJob index =>
    -- without jobs the division of the buffer ends the process
    if numberOfJobs = 0 then s
    else if succeeds then
      { s with
        jobs := s.jobs ++ [.create (output index)]
        handler := if index + 1 < numberOfJobs then .setupJob (index + 1) else .waitJob 0 }
    else s.throw
  | .waitJob index =>
    match s.jobs[index]? with
    | some job =>
      if job.state = .notStarted then s else { s with handler := .waitJob (index + 1) }
    | none => ({ s with handler := .startTrace } : TraceManager Q).goTo none (.store .running)
  | .startTrace => if succeeds then { s with handler := .sleep } else s.throw
  | .sleep => { s with handler := .stopTrace }
  | .stopTrace => if succeeds then { s with handler := .joinJobs } else s.throw
  | .joinJobs =>
    if ∀ job ∈ s.jobs, job.pc = .ended then
      ({ s with handler := .ended } : TraceManager Q).goTo none .testRunning
    else s
  | .ended => s

def step (numberOfJobs : ℕ) (output : ℕ → FileTraceSerializer) (action : SessionAction Q)
    (s : TraceManager Q) : TraceManager Q :=
  match action with
  | .handler succeeds =>
    if s.updates none = .idle then s.handleJobs numberOfJobs output succeeds else s.turn none
  | .job index choice => { s with jobs := s.jobs.modify index (JobThread.doWork choice) }
  | .getState thread =>
    if s.updates (some thread) = .idle then s.goTo (some thread) .testRunning else s
  | .thread thread => s.turn (some thread)

end TraceManager

end Octf.Interface
