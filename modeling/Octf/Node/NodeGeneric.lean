import Mathlib.Data.List.Nodup
import Mathlib.Logic.Relation
import Octf.Foundation.Run

/-! Generic nodes, which keep their children and the path they were given when they were added,
and the search for a node by its path. -/
namespace Octf.Node
open Foundation

abbrev NodePath := List String

/-- A shared pointer to a node. -/
abbrev NodeRef := ℕ

structure NodeGeneric where
  id : String
  path : NodePath
  children : List NodeRef

/-- The nodes that pointers point to. -/
abbrev Nodes := NodeRef → NodeGeneric

namespace Nodes

variable (s : Nodes)

/-- Nodes as they are constructed. -/
def constructed (id : NodeRef → String) : Nodes := fun n => ⟨id n, [id n], []⟩

def setPath (n : NodeRef) (path : NodePath) : Nodes :=
  Function.update s n { s n with path := path }

def setChildren (n : NodeRef) (children : List NodeRef) : Nodes :=
  Function.update s n { s n with children := children }

/-- `std::find` in the list of children. -/
def getChild (n : NodeRef) (id : String) : Option NodeRef :=
  (s n).children.find? fun child => (s child).id = id

def hasChild (n : NodeRef) (id : String) : Bool := (s.getChild n id).isSome

/-- The path of the child is set before the list of children is looked at. -/
def addChild (parent child : NodeRef) : Bool × Nodes :=
  let s := s.setPath child ((s parent).path ++ [(s child).id])
  if s.hasChild parent (s child).id then (false, s)
  else (true, s.setChildren parent ((s parent).children ++ [child]))

def removeChild (parent : NodeRef) (id : String) : Bool × Nodes :=
  if s.hasChild parent id then
    (true, s.setChildren parent ((s parent).children.eraseP fun child => (s child).id = id))
  else (false, s)

/-- The loop of `getChildByPath` over the items behind the first. -/
def descend (owner : NodeRef) : NodePath → Option NodeRef → Option NodeRef
  | [], child => child
  | id :: path, child =>
    match s.getChild (child.getD owner) id with
    | none => none
    | some child => descend owner path (some child)

def getChildByPath (owner : NodeRef) : NodePath → Option NodeRef
  | [] => none
  | id :: path => if id ≠ (s owner).id then none else s.descend owner path none

/-- The node that `handleMethod` calls the method on. -/
def methodNode (owner : NodeRef) (path : NodePath) : Option NodeRef :=
  if path = (s owner).path then some owner else s.getChildByPath owner path

@[simp] theorem setPath_id (n m : NodeRef) (path : NodePath) :
    (s.setPath n path m).id = (s m).id := by
  unfold setPath
  by_cases h : m = n
  · rw [h, Function.update_self]
  · rw [Function.update_of_ne h]

@[simp] theorem setPath_children (n m : NodeRef) (path : NodePath) :
    (s.setPath n path m).children = (s m).children := by
  unfold setPath
  by_cases h : m = n
  · rw [h, Function.update_self]
  · rw [Function.update_of_ne h]

theorem setPath_path (n m : NodeRef) (path : NodePath) :
    (s.setPath n path m).path = if m = n then path else (s m).path := by
  unfold setPath
  split_ifs with h
  · rw [h, Function.update_self]
  · rw [Function.update_of_ne h]

@[simp] theorem setChildren_id (n m : NodeRef) (children : List NodeRef) :
    (s.setChildren n children m).id = (s m).id := by
  unfold setChildren
  by_cases h : m = n
  · rw [h, Function.update_self]
  · rw [Function.update_of_ne h]

@[simp] theorem setChildren_path (n m : NodeRef) (children : List NodeRef) :
    (s.setChildren n children m).path = (s m).path := by
  unfold setChildren
  by_cases h : m = n
  · rw [h, Function.update_self]
  · rw [Function.update_of_ne h]

theorem setChildren_children (n m : NodeRef) (children : List NodeRef) :
    (s.setChildren n children m).children = if m = n then children else (s m).children := by
  unfold setChildren
  split_ifs with h
  · rw [h, Function.update_self]
  · rw [Function.update_of_ne h]

/-- A path that is the node's own already is left as it is. -/
theorem setPath_self (n : NodeRef) : s.setPath n (s n).path = s := Function.update_eq_self n s

@[simp] theorem getChild_setPath (n m : NodeRef) (path : NodePath) (id : String) :
    (s.setPath n path).getChild m id = s.getChild m id := by
  simp [getChild]

end Nodes

inductive Op where
  | addChild (parent child : NodeRef)
  | removeChild (parent : NodeRef) (id : String)

def step (op : Op) (s : Nodes) : Nodes :=
  match op with
  | .addChild parent child => (s.addChild parent child).2
  | .removeChild parent id => (s.removeChild parent id).2

end Octf.Node
