import Octf.Communication.Method
import Octf.Foundation.OrderedMap
import Octf.Foundation.Run

/-! The server side of a connection context. The receive thread takes one request after
another; the services complete the methods they run on threads of their own. -/
namespace Octf.Communication
open Foundation

/-- Where a method is. -/
inductive Phase where
  | unknown
  /-- registered, the receive thread hands it over -/
  | handling
  /-- `CallMethod` was called -/
  | running
  /-- out of the map, its response is to be sent -/
  | sending
  | done
  deriving DecidableEq

inductive RxPc where
  | receiving
  | handling (method : ℕ)
  /-- inside the completion of a method it failed -/
  | responding (method : ℕ)
  | stopped
  deriving DecidableEq

/-- How the process goes wrong; nothing follows. -/
inductive Fault where
  /-- `m_srvLock` is taken by the thread that holds it -/
  | relock
  /-- `abort()`, also behind an exception that nothing catches -/
  | abort
  /-- an interface descriptor is asked for a method it does not have -/
  | methodIndex
  deriving DecidableEq

structure ServerContext where
  srvPendingMethods : OrderedMap ℕ
  /-- The methods are numbered as they are received. -/
  received : ℕ
  methods : ℕ → Method
  phase : ℕ → Phase
  rx : RxPc
  responses : List (ℕ × PacketMethodResponse)
  fault : Option Fault

inductive ServerAction where
  /-- a request comes -/
  | receive (request : PacketMethodRequest)
  /-- the receive thread hands its method to the manager, with the nodes as they are then; a
  manager without handler has none -/
  | handle (owner : Option ServerNode)
  /-- a service sets an error or an output and runs the closure of its method -/
  | complete (method : ℕ) (err : String) (output : Option (List UInt8))
  /-- the response of a method is sent, or cannot be sent -/
  | send (method : ℕ) (ok : Bool)
  | disconnect

namespace ServerContext

def noMethod : Method := ⟨[], ⟨"", 0⟩, 0, 0, [], "", none⟩

def init : ServerContext :=
  ⟨OrderedMap.empty, 0, fun _ => noMethod, fun _ => .unknown, .receiving, [], none⟩

def fails (fault : Fault) (s : ServerContext) : ServerContext := { s with fault := some fault }

def setMethod (i : ℕ) (m : Method) (s : ServerContext) : ServerContext :=
  { s with methods := Function.update s.methods i m }

def setPhase (i : ℕ) (phase : Phase) (s : ServerContext) : ServerContext :=
  { s with phase := Function.update s.phase i phase }

/-- `sendResponse`, up to the end of its section under the lock. The thread may be inside such
a section already. -/
def sendResponse (locked : Bool) (i : ℕ) (s : ServerContext) : ServerContext :=
  if locked then s.fails .relock
  else match s.srvPendingMethods.find (s.methods i).sequenceId with
    | none => s
    | some registered =>
      if i ≠ registered then s.fails .abort
      else
        ({ s with srvPendingMethods := s.srvPendingMethods.erase (s.methods i).sequenceId } :
          ServerContext).setPhase i .sending

/-- The rest of `sendResponse`. -/
def sendDataPacket (i : ℕ) (ok : Bool) (s : ServerContext) : ServerContext :=
  ({ s with
    responses :=
      if ok then s.responses ++ [(i, (s.methods i).prepareResponsePacket)] else s.responses
    rx := if s.rx = .responding i then .receiving else s.rx } : ServerContext).setPhase i .done

/-- `Method::fail`, which runs the completion at once. -/
def fail (locked : Bool) (reason : String) (i : ℕ) (s : ServerContext) : ServerContext :=
  (s.setMethod i ((s.methods i).setFailed reason)).sendResponse locked i

/-- The section of `handleServerMethod` under the lock. -/
def register (i : ℕ) (s : ServerContext) : ServerContext :=
  let sid := (s.methods i).sequenceId
  if s.srvPendingMethods.find sid ≠ none then
    s.fail true "Method with given SID already registered" i
  else if maxPendingMethods < s.srvPendingMethods.entries.length then
    s.fail true "Maximum of pending methods reached" i
  else
    ({ s with srvPendingMethods := s.srvPendingMethods.emplace sid i, rx := .handling i } :
      ServerContext).setPhase i .handling

def handleServerMethod (request : PacketMethodRequest) (s : ServerContext) : ServerContext :=
  match prepareMethod request with
  | .thrown => s.fails .abort
  | .refused => { s with rx := .stopped }
  | .ready m =>
    (({ s with received := s.received + 1 } : ServerContext).setMethod s.received m).register
      s.received

/-- The receive thread fails its method and goes on to the response. -/
def failHandled (reason : String) (i : ℕ) (s : ServerContext) : ServerContext :=
  ({ s with rx := .responding i } : ServerContext).fail false reason i

/-- `handleMethod`; without a handler the method fails. -/
def handleMethod (owner : Option ServerNode) (i : ℕ) (s : ServerContext) : ServerContext :=
  match owner with
  | none => s.failHandled "No method handler" i
  | some owner =>
    match owner.target (s.methods i) with
    | .error reason => s.failHandled reason i
    | .ok interface =>
      match getMethodDescriptor (s.methods i) interface with
      | .none => s.failHandled "Cannot parse input" i
      | .outOfRange => s.fails .methodIndex
      | .found =>
        if interface.parsesRequest (s.methods i).methodID (s.methods i).requestPayload then
          ({ s with rx := .receiving } : ServerContext).setPhase i .running
        else s.failHandled "Cannot parse input" i

/-- What an action does; one that is not due does nothing. -/
def act (s : ServerContext) : ServerAction → ServerContext
  | .receive request => if s.rx = .receiving then s.handleServerMethod request else s
  | .handle owner =>
    match s.rx with
    | .handling i => s.handleMethod owner i
    | _ => s
  | .complete i err output =>
    if s.phase i = .running then
      (s.setMethod i { s.methods i with err := err, output := output }).sendResponse false i
    else s
  | .send i ok => if s.phase i = .sending then s.sendDataPacket i ok else s
  | .disconnect => if s.rx = .receiving then { s with rx := .stopped } else s

def step (action : ServerAction) (s : ServerContext) : ServerContext :=
  if s.fault = none then s.act action else s

end ServerContext

end Octf.Communication
