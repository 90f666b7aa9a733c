import Octf.Communication.Packet

/-! A method on the client side, from its call to the run of its closure. -/
namespace Octf.Communication

/-- The paths of the nodes that live, by the references to them. -/
abbrev Nodes := ℕ → Option (List String)

structure MethodClient where
  interface : InterfaceId
  mId : ℤ
  node : ℕ
  sid : ℕ
  rpcController : ℕ
  /-- The request as it is serialized, if it can be. -/
  request : Option (List UInt8)
  /-- Whether the response message can be parsed from a payload. -/
  parsesResponse : List UInt8 → Bool
  closure : ℕ

/-- What the closure finds when it runs: an error on the controller, or a response. -/
inductive Outcome where
  | failed (reason : String)
  | completed (response : List UInt8)
  deriving DecidableEq

structure ClosureRun where
  closure : ℕ
  outcome : Outcome
  deriving DecidableEq

namespace MethodClient

def setSid (sid : ℕ) (m : MethodClient) : MethodClient := { m with sid := sid }

def preparePacket (nodes : Nodes) (m : MethodClient) : Option PacketMethodRequest :=
  match nodes m.node with
  | none => none
  | some path => m.request.map fun request => ⟨path, m.interface, m.mId, m.sid, request⟩

def fail (reason : String) (nodes : Nodes) (m : MethodClient) : List ClosureRun :=
  match nodes m.node with
  | none => []
  | some _ => [⟨m.closure, .failed reason⟩]

def complete (response : List UInt8) (nodes : Nodes) (m : MethodClient) : List ClosureRun :=
  match nodes m.node with
  | none => []
  | some _ =>
    if m.parsesResponse response then [⟨m.closure, .completed response⟩]
    else m.fail "ERROR, Cannot parse response" nodes

/-- What a response makes of its method. -/
def respond (resp : PacketMethodResponse) (nodes : Nodes) (m : MethodClient) :
    List ClosureRun :=
  match resp.result with
  | none => m.fail "ERROR, Invalid response format" nodes
  | some result =>
    if result.code ≠ resultSuccess then
      if result.errorMessage.isEmpty then m.fail "ERROR, server returned error" nodes
      else m.fail result.errorMessage nodes
    else m.complete resp.response nodes

variable {nodes : Nodes} {m : MethodClient}

theorem fail_eq (h : (nodes m.node).isSome) (reason : String) :
    m.fail reason nodes = [⟨m.closure, .failed reason⟩] := by
  obtain ⟨path, hpath⟩ := Option.isSome_iff_exists.mp h
  simp only [fail, hpath]

theorem complete_eq (h : (nodes m.node).isSome) (response : List UInt8) :
    ∃ outcome, m.complete response nodes = [⟨m.closure, outcome⟩] := by
  obtain ⟨path, hpath⟩ := Option.isSome_iff_exists.mp h
  simp only [complete, hpath]
  split_ifs
  · exact ⟨_, rfl⟩
  · exact ⟨_, fail_eq h _⟩

/-- A response runs the closure of its method once. -/
theorem respond_eq (h : (nodes m.node).isSome) (resp : PacketMethodResponse) :
    ∃ outcome, m.respond resp nodes = [⟨m.closure, outcome⟩] := by
  unfold respond
  split
  · exact ⟨_, fail_eq h _⟩
  · split_ifs
    · exact ⟨_, fail_eq h _⟩
    · exact ⟨_, fail_eq h _⟩
    · exact complete_eq h _

theorem preparePacket_sid {packet : PacketMethodRequest}
    (h : m.preparePacket nodes = some packet) : packet.sid = m.sid := by
  unfold preparePacket at h
  split at h
  · cases h
  · obtain ⟨request, -, rfl⟩ := Option.map_eq_some_iff.mp h
    rfl

end MethodClient

end Octf.Communication
