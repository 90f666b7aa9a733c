import Octf.Communication.MethodClient
import Octf.Foundation.OrderedMap
import Octf.Foundation.Run
import Octf.Foundation.Word

/-! The client side of a connection context. Any number of threads are inside `sendMethod`,
each between two steps of it, while the receive thread brings responses and others cancel,
deactivate or drop the context. A section under the lock is one step; only the loop of
`getNextSid` changes what others change without the lock, and is cut at each change. -/
namespace Octf.Communication
open Foundation

/-- What a call of `sendMethod` does next, with its local variables. -/
inductive SendPc where
  | idle
  /-- `sid_t newSid = m_sidRef++` -/
  | getNextSid (method : MethodClient)
  /-- `lock_guard` of `getNextSid` -/
  | lockSids (method : MethodClient) (newSid : ℕ)
  /-- the condition of the loop, under the lock -/
  | checkSid (method : MethodClient) (newSid : ℕ)
  /-- `method->preparePacket(packet)` -/
  | preparePacket (method : MethodClient)
  /-- register the method, under the lock -/
  | register (method : MethodClient) (packet : PacketMethodRequest)
  /-- `packet.SerializeToString(&data)` -/
  | serialize (packet : PacketMethodRequest)
  /-- `m_transceiver->sendDataPacket(data)` -/
  | sendDataPacket (packet : PacketMethodRequest)
  /-- `failClientMethod(sid, reason)`, under the lock -/
  | failClientMethod (sid : ℕ) (reason : String)
  | returned

def SendPc.isReturned : SendPc → Bool
  | .returned => true
  | _ => false

structure ClientContext where
  nodes : Nodes
  sidRef : ℕ
  clntPendingMethods : OrderedMap MethodClient
  /-- The call that holds `m_clntLock` from one step to the next. -/
  clntLock : Option ℕ
  /-- The calls are numbered in the order they begin, and so are the closures. -/
  started : ℕ
  calls : ℕ → SendPc
  /-- What went out, with the number of its call. -/
  sent : List (ℕ × PacketMethodRequest)
  closureRuns : List ClosureRun
  destroyed : Bool

inductive ClientAction where
  | sendMethod (method : MethodClient)
  /-- The next step of a call; `ok` tells whether the packet could be serialized, or sent. -/
  | advance (call : ℕ) (ok : Bool)
  /-- `completeClientMethod` on the receive thread -/
  | response (resp : PacketMethodResponse)
  | onDisconnection
  | cancelClientMethod (controller : ℕ)
  | deactivate
  /-- the destructor -/
  | destroy
  /-- a node goes away -/
  | expire (node : ℕ)

namespace ClientContext

def init (nodes : Nodes) : ClientContext :=
  ⟨nodes, 0, OrderedMap.empty, none, 0, fun _ => .idle, [], [], false⟩

def goTo (call : ℕ) (pc : SendPc) (s : ClientContext) : ClientContext :=
  { s with calls := Function.update s.calls call pc }

def finish (runs : List ClosureRun) (s : ClientContext) : ClientContext :=
  { s with closureRuns := s.closureRuns ++ runs }

/-- A new call: its closure gets the next number. -/
def sendMethod (method : MethodClient) (s : ClientContext) : ClientContext :=
  ({ s with started := s.started + 1 } : ClientContext).goTo s.started
    (.getNextSid { method with closure := s.started })

/-- The section of `sendMethod` under the lock. -/
def register (call : ℕ) (method : MethodClient) (packet : PacketMethodRequest)
    (s : ClientContext) : ClientContext :=
  if maxPendingMethods < s.clntPendingMethods.entries.length then
    (s.finish (method.fail "Maximum of pending methods reached" s.nodes)).goTo call .returned
  else if s.clntPendingMethods.find method.sid ≠ none then
    (s.finish (method.fail "Method with given SID already registered" s.nodes)).goTo call
      .returned
  else
    ({ s with clntPendingMethods := s.clntPendingMethods.emplace method.sid method } :
      ClientContext).goTo call (.serialize packet)

def completeClientMethod (resp : PacketMethodResponse) (s : ClientContext) : ClientContext :=
  match s.clntPendingMethods.find resp.refSid with
  | none => s
  | some method =>
    { s.finish (method.respond resp s.nodes) with
      clntPendingMethods := s.clntPendingMethods.erase resp.refSid }

def failClientMethod (sid : ℕ) (reason : String) (s : ClientContext) : ClientContext :=
  match s.clntPendingMethods.find sid with
  | none => s
  | some method =>
    { s.finish (method.fail reason s.nodes) with
      clntPendingMethods := s.clntPendingMethods.erase sid }

/-- The loop takes the first method until none is left. -/
def cancelAllClientMethods (reason : String) (s : ClientContext) : ClientContext :=
  { s.finish (s.clntPendingMethods.entries.flatMap fun e => e.2.fail reason s.nodes) with
    clntPendingMethods := OrderedMap.empty }

/-- The first method with the controller, in the order of the map. -/
def cancelClientMethod (controller : ℕ) (s : ClientContext) : ClientContext :=
  match s.clntPendingMethods.entries.find? fun e => e.2.rpcController = controller with
  | none => s
  | some (_, method) =>
    { s.finish (method.fail "Cancel of method requested." s.nodes) with
      clntPendingMethods :=
        s.clntPendingMethods.removeFirst fun e => e.2.rpcController = controller }

/-- A section under `m_clntLock`, if it is free. -/
def locked (body : ClientContext → ClientContext) (s : ClientContext) : ClientContext :=
  if s.clntLock = none then body s else s

/-- The next step of a call; one that waits for the lock stays where it is. -/
def advance (call : ℕ) (ok : Bool) (s : ClientContext) : ClientContext :=
  match s.calls call with
  | .idle | .returned => s
  | .getNextSid method =>
    ({ s with sidRef := (s.sidRef + 1) % 2 ^ 32 } : ClientContext).goTo call
      (.lockSids method s.sidRef)
  | .lockSids method newSid =>
    s.locked fun s =>
      ({ s with clntLock := some call } : ClientContext).goTo call (.checkSid method newSid)
  | .checkSid method newSid =>
    if s.clntPendingMethods.find newSid ≠ none then
      ({ s with sidRef := (s.sidRef + 1) % 2 ^ 32 } : ClientContext).goTo call
        (.checkSid method s.sidRef)
    else
      ({ s with clntLock := none } : ClientContext).goTo call
        (.preparePacket (method.setSid newSid))
  | .preparePacket method =>
    match method.preparePacket s.nodes with
    | none => (s.finish (method.fail "ERROR, cannot prepare packet" s.nodes)).goTo call .returned
    | some packet => s.goTo call (.register method packet)
  | .register method packet => s.locked fun s => s.register call method packet
  | .serialize packet =>
    if ok then s.goTo call (.sendDataPacket packet)
    else s.goTo call (.failClientMethod packet.sid "ERROR, cannot serialize packet")
  | .sendDataPacket packet =>
    if ok then
      ({ s with sent := s.sent ++ [(call, packet)] } : ClientContext).goTo call .returned
    else s.goTo call (.failClientMethod packet.sid "ERROR, cannot send packet")
  | .failClientMethod sid reason =>
    s.locked fun s => (s.failClientMethod sid reason).goTo call .returned

/-- Nobody is inside `sendMethod`; a call holds a reference to the context. -/
def Unused (s : ClientContext) : Prop := ∀ call < s.started, (s.calls call).isReturned

instance (s : ClientContext) : Decidable s.Unused :=
  inferInstanceAs (Decidable (∀ call < s.started, (s.calls call).isReturned))

/-- What an action does; one that waits for the lock does nothing. -/
def act (s : ClientContext) : ClientAction → ClientContext
  | .sendMethod method => s.sendMethod method
  | .advance call ok => s.advance call ok
  | .response resp => s.locked fun s => s.completeClientMethod resp
  | .onDisconnection => s.locked fun s => s.cancelAllClientMethods "ERROR, Disconnection"
  | .cancelClientMethod controller => s.locked fun s => s.cancelClientMethod controller
  | .deactivate => s.locked fun s => s.cancelAllClientMethods "ERROR, Destruction"
  | .destroy => s.locked fun s =>
    if s.Unused then { s.cancelAllClientMethods "ERROR, Destruction" with destroyed := true }
    else s
  | .expire node => { s with nodes := Function.update s.nodes node none }

def step (action : ClientAction) (s : ClientContext) : ClientContext :=
  if s.destroyed then s else s.act action

end ClientContext

end Octf.Communication
