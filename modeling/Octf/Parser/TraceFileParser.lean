import Octf.Foundation.OrderedSet
import Octf.Parser.Event
import Octf.Storage.TraceFileReader

/-! The trace file parser: one reader for every queue of a trace, and an ordered set with
the next event of every queue. -/
namespace Octf.Parser
open Foundation Octf.Storage

inductive TraceState where
  | UNDEFINED | NOT_STARTED | INITIALIZING | RUNNING | COMPLETE | ERROR
  deriving DecidableEq

structure TraceSummary where
  state : TraceState
  queueCount : ℤ

/-- The order of the IO trace handlers. -/
def compareEvents (a b : Event) : Bool := decide (a.header.sid < b.header.sid)

structure EventInfo where
  queue : ℕ
  event : Event
  deriving DecidableEq

/-- The comparator of the set. -/
def EventInfo.compare (left right : EventInfo) : Bool := compareEvents left.event right.event

/-- A reader is the list of the events it has not read yet; `readTraceEvent_frame` gives what
it does on the bytes of its file. -/
structure TraceFileParser where
  readers : List (List Event)
  events : List EventInfo
  deriving DecidableEq

namespace TraceFileParser

def TRACE_FILE_PREFIX : String := "octf.trace."

/-- One reader for every queue below `queueCount`. -/
def openReaders (traceLocation : String) (files : List (List Event)) :
    (queueCount : ℕ) → Except String (List (List Event))
  | 0 => .ok []
  | queue + 1 =>
    match openReaders traceLocation files queue with
    | .error message => .error message
    | .ok readers =>
      match files[queue]? with
      | some file => .ok (readers ++ [file])
      | none => .error ("Could not open trace file." ++
          (traceLocation ++ "/" ++ TRACE_FILE_PREFIX ++ toString queue))

/-- The first event of every queue goes into the set. -/
def fillEvents : (queue : ℕ) → (readers : List (List Event)) → (events : List EventInfo) →
    List (List Event) × List EventInfo
  | _, [], events => ([], events)
  | queue, [] :: readers, events =>
    let (readers, events) := fillEvents (queue + 1) readers events
    ([] :: readers, events)
  | queue, (event :: rest) :: readers, events =>
    let (readers, events) := fillEvents (queue + 1) readers
      (OrderedSet.insert EventInfo.compare ⟨queue, event⟩ events)
    (rest :: readers, events)

def init (traceLocation : String) (summary : Option TraceSummary) (files : List (List Event)) :
    Except String TraceFileParser :=
  match summary with
  | none => .error "Could not parse specified trace. No summary file found."
  | some summary =>
    if summary.state ≠ .COMPLETE then .error "Specified trace is not in 'complete' state."
    else if summary.queueCount ≤ 0 then .error "Trace summary contains invalid values."
    else
      match openReaders traceLocation files summary.queueCount.toNat with
      | .error message => .error message
      | .ok readers =>
        let (readers, events) := fillEvents 0 readers []
        .ok ⟨readers, events⟩

/-- The smallest event, and the parser with the next event of the same queue. -/
def parseTraceEvent (p : TraceFileParser) : Except String (Event × TraceFileParser) :=
  match p.events with
  | [] => .error ("Attempted to parse event using parser" ++
      " which has finished or wasn't initialized")
  | smallestEvent :: events =>
    match p.readers[smallestEvent.queue]? with
    | some (event :: rest) =>
      .ok (smallestEvent.event,
        ⟨p.readers.set smallestEvent.queue rest,
          OrderedSet.insert EventInfo.compare ⟨smallestEvent.queue, event⟩ events⟩)
    | _ => .ok (smallestEvent.event, ⟨p.readers, events⟩)

def isFinished (p : TraceFileParser) : Bool :=
  p.readers.all (fun reader => reader.isEmpty) && p.events.isEmpty

/-- Call `parseTraceEvent` until the parser is finished, in at most the given rounds: the
events that it returned, and how it ended. -/
def processEvents : (rounds : ℕ) → TraceFileParser → List Event × Outcome
  | 0, _ => ([], .running)
  | rounds + 1, p =>
    if p.isFinished then ([], .finished)
    else
      match p.parseTraceEvent with
      | .error message => ([], .exception message)
      | .ok (event, p) =>
        let (events, outcome) := processEvents rounds p
        (event :: events, outcome)

end TraceFileParser

end Octf.Parser
