import Octf.Communication.Packet

/-! A method on the server side: made of a request, looked up among the interfaces of the
nodes, and made into a response. -/
namespace Octf.Communication

/-! ### Node ids -/

def isLongKeyValid (key : String) : Bool :=
  match key.toList with
  | [] => false
  | c :: cs => c.isAlphanum && cs.all fun d => d.isAlphanum || d = '-'

/-- The exceptions that a function may leave with. -/
inductive ExceptionClass where
  | exception
  | invalidParameterException
  deriving DecidableEq

/-- `NodeId::validate` -/
def validate (id : String) : Except ExceptionClass Unit :=
  if isLongKeyValid id then .ok () else .error .exception

/-! ### Requests -/

structure Method where
  path : List String
  interfaceId : InterfaceId
  methodID : ℤ
  sequenceId : ℕ
  requestPayload : List UInt8
  /-- The error of the controller; none is set while it is empty. -/
  err : String
  /-- The output as it is serialized, if it can be. -/
  output : Option (List UInt8)

/-- What `prepareMethod` returns, or that an exception leaves it. -/
inductive Prepared where
  | ready (method : Method)
  | refused
  | thrown

/-- The loop over the path catches the invalid parameters only. -/
def prepareMethod (request : PacketMethodRequest) : Prepared :=
  match request.path.forM validate with
  | .error .invalidParameterException => .refused
  | .error .exception => .thrown
  | .ok _ =>
    if request.path = [] then .refused
    else .ready ⟨request.path, request.interface, request.mid, request.sid, request.request, "",
      none⟩

theorem forM_validate (path : List String) :
    path.forM validate =
      if ∀ id ∈ path, isLongKeyValid id then .ok () else .error .exception := by
  induction path with
  | nil => rfl
  | cons id path ih =>
    change (validate id >>= fun _ => path.forM validate) = _
    rw [ih, validate]
    by_cases hid : isLongKeyValid id
    · by_cases hpath : ∀ x ∈ path, isLongKeyValid x
      · have hall : ∀ x ∈ id :: path, isLongKeyValid x := List.forall_mem_cons.mpr ⟨hid, hpath⟩
        rw [if_pos hid, if_pos hpath, if_pos hall]
        rfl
      · have hall : ¬ ∀ x ∈ id :: path, isLongKeyValid x := fun h =>
          hpath (List.forall_mem_cons.mp h).2
        rw [if_pos hid, if_neg hpath, if_neg hall]
        rfl
    · have hall : ¬ ∀ x ∈ id :: path, isLongKeyValid x := fun h =>
        hid (List.forall_mem_cons.mp h).1
      rw [if_neg hid, if_neg hall]
      rfl

/-- No invalid node id is refused: the exception it raises is not the one that is caught. -/
theorem prepareMethod_eq (request : PacketMethodRequest) :
    prepareMethod request =
      if ∀ id ∈ request.path, isLongKeyValid id then
        if request.path = [] then .refused
        else .ready ⟨request.path, request.interface, request.mid, request.sid, request.request,
          "", none⟩
      else .thrown := by
  unfold prepareMethod
  rw [forM_validate]
  by_cases h : ∀ id ∈ request.path, isLongKeyValid id
  · simp only [if_pos h]
  · simp only [if_neg h]

namespace Method

def setFailed (reason : String) (m : Method) : Method := { m with err := reason }

def prepareResponsePacket (m : Method) : PacketMethodResponse :=
  if m.err ≠ "" then ⟨m.methodID, m.sequenceId, [], some ⟨resultError, m.err⟩⟩
  else match m.output with
    | some response => ⟨m.methodID, m.sequenceId, response, some ⟨resultSuccess, ""⟩⟩
    | none => ⟨m.methodID, m.sequenceId, [], some ⟨resultError, "Cannot serialize response"⟩⟩

@[simp] theorem prepareResponsePacket_refSid (m : Method) :
    m.prepareResponsePacket.refSid = m.sequenceId := by
  unfold prepareResponsePacket
  split_ifs
  · rfl
  · split <;> rfl

end Method

/-! ### Nodes and interfaces -/

structure Interface where
  id : InterfaceId
  /-- `GetDescriptor()->method_count()` -/
  methodCount : ℕ
  /-- Whether the input of a method can be parsed from a payload. -/
  parsesRequest : ℤ → List UInt8 → Bool

inductive ServerNode where
  | mk (id : String) (path : List String) (interfaces : List Interface)
    (children : List ServerNode)

namespace ServerNode

def id : ServerNode → String
  | mk id _ _ _ => id

def path : ServerNode → List String
  | mk _ path _ _ => path

def getInterface (id : InterfaceId) : ServerNode → Option Interface
  | mk _ _ interfaces _ => interfaces.find? fun i => i.id = id

def getChild (id : String) : ServerNode → Option ServerNode
  | mk _ _ _ children => children.find? fun c => c.id = id

/-- The loop over the rest of the items in a path. -/
def descend : List String → ServerNode → Option ServerNode
  | [], node => some node
  | id :: ids, node =>
    match node.getChild id with
    | none => none
    | some child => descend ids child

/-- A child of the owner; the path of the owner itself leads to none. -/
def getChildByPath (path : List String) (owner : ServerNode) : Option ServerNode :=
  match path with
  | [] => none
  | id :: ids => if id ≠ owner.id ∨ ids = [] then none else owner.descend ids

/-- The interface that a method is for, as `handleMethod` looks it up. -/
def target (m : Method) (owner : ServerNode) : Except String Interface :=
  match if m.path = owner.path then some owner else owner.getChildByPath m.path with
  | none => .error "No such node"
  | some node =>
    match node.getInterface m.interfaceId with
    | none => .error "No such interface"
    | some interface => .ok interface

end ServerNode

/-- What becomes of a request for the descriptor of a method. -/
inductive Lookup where
  | none
  | found
  /-- the descriptor is asked for an index it does not have -/
  | outOfRange
  deriving DecidableEq

/-- `GetDescriptor()->method(index)` has no check of its own. -/
def getMethodDescriptor (m : Method) (interface : Interface) : Lookup :=
  if (interface.methodCount : ℤ) < m.methodID then .none
  else if 0 ≤ m.methodID ∧ m.methodID < interface.methodCount then .found
  else .outOfRange

end Octf.Communication
