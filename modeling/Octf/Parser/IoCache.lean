import Mathlib.Logic.Function.Basic
import Octf.Foundation.Run
import Octf.Foundation.Word

/-! A cache of requests that wait for their completions, without anything a handler adds to
them: who completes whom, in which order they are reported, and with which queue depth. -/
namespace Octf.Parser
open Foundation

structure IoQueueDepth where
  value : ℕ
  adjustment : ℕ
  deriving DecidableEq

/-- A request in the cache. -/
structure Cached where
  sid : ℕ
  timestamp : ℕ
  device : ℕ
  latency : ℕ
  error : Bool
  qd : ℕ
  deriving DecidableEq

/-- What is said of a request in the end. -/
structure Report where
  device : ℕ
  latency : ℕ
  error : Bool
  qd : ℕ
  deriving DecidableEq

/-- Entries that are no requests are kept in line with the others. -/
@[ext]
structure IoCache where
  queue : List (Option Cached)
  /-- How many entries have left; entries are numbered from the first on. -/
  popped : ℕ
  idMapping : ℕ → Option ℕ
  depth : ℕ → IoQueueDepth
  reported : List (Option Report)

namespace IoCache

inductive Step where
  | submit (timestamp sid id device : ℕ)
  | other
  | complete (timestamp refId device : ℕ) (error : Bool)
  | quiet
  | pushOut
  deriving DecidableEq

def start : IoCache := ⟨[], 0, fun _ => none, fun _ => ⟨0, 0⟩, []⟩

/-- The entry with the given number. -/
def entry (number : ℕ) (s : IoCache) : Option Cached :=
  if s.popped ≤ number then (s.queue[number - s.popped]?).join else none

/-- The request an id refers to. -/
def find (id : ℕ) (s : IoCache) : Option (ℕ × Cached) :=
  match s.idMapping id with
  | none => none
  | some number => (s.entry number).map fun request => (number, request)

def submit (timestamp sid id device : ℕ) (s : IoCache) : IoCache :=
  let depth := s.depth device
  let value := add64 depth.value 1
  { s with
    queue := s.queue ++ [some ⟨if id ≠ 0 then id else sid, timestamp, device, 0, false, value⟩]
    idMapping := if id ≠ 0 then Function.update s.idMapping id (some (s.popped + s.queue.length))
      else s.idMapping
    depth := Function.update s.depth device { depth with value := value } }

/-- The completion of a request that the cache holds under the given number. -/
def settle (timestamp device : ℕ) (error : Bool) (number : ℕ) (request : Cached) (s : IoCache) :
    IoCache :=
  let depth := s.depth device
  let matched := request.timestamp ≤ timestamp
  { s with
    queue := s.queue.set (number - s.popped) (some
      (if matched then
        { request with sid := 0, latency := timestamp - request.timestamp, error := error }
      else { request with sid := 0 }))
    idMapping := Function.update s.idMapping request.sid none
    depth := if matched ∧ depth.value ≠ 0 then
        Function.update s.depth device { depth with value := depth.value - 1 }
      else s.depth }

def complete (timestamp refId device : ℕ) (error : Bool) (s : IoCache) : IoCache :=
  match s.find refId with
  | none => s
  | some (number, request) => s.settle timestamp device error number request

def pushOut (s : IoCache) : IoCache :=
  match s.queue with
  | [] => s
  | none :: queue =>
    { s with queue := queue, popped := s.popped + 1, reported := s.reported ++ [none] }
  | some request :: queue =>
    let depth := s.depth request.device
    { queue := queue
      popped := s.popped + 1
      idMapping := Function.update s.idMapping request.sid none
      depth := if request.latency = 0 then
          Function.update s.depth request.device
            { depth with adjustment := add64 depth.adjustment 1 }
        else s.depth
      reported := s.reported ++ [some ⟨request.device, request.latency, request.error,
        sub64 request.qd depth.adjustment⟩] }

def Step.apply : Step → IoCache → IoCache
  | .submit timestamp sid id device, s => s.submit timestamp sid id device
  | .other, s => { s with queue := s.queue ++ [none] }
  | .complete timestamp refId device error, s => s.complete timestamp refId device error
  | .quiet, s => s
  | .pushOut, s => s.pushOut

end IoCache

end Octf.Parser
