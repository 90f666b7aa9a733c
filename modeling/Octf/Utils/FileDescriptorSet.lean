import Octf.Foundation.DepthFirst

/-! The set of file descriptions of message types and all types of their fields, one file for each
package. Descriptors are named by their full names. -/
namespace Octf.Utils
open Foundation

inductive FieldType where
  | message (fullName : String)
  | enum (fullName : String)
  /-- neither a message nor an enumeration -/
  | other
  deriving DecidableEq

structure FieldDescriptor where
  fullName : String
  type : FieldType
  deriving DecidableEq

structure Descriptor where
  package : String
  fields : List FieldDescriptor
  /-- the messages it is declared in, the innermost first -/
  containing : List String

structure EnumDescriptor where
  package : String
  containing : List String

/-- All descriptors, with the rules of full names: a field has the name of no message and of no
other field. -/
structure DescriptorPool where
  messages : List String
  message : String → Descriptor
  enum : String → EnumDescriptor
  closed : ∀ m ∈ messages, ∀ f ∈ (message m).fields, ∀ t, f.type = .message t → t ∈ messages
  fieldNotMessage : ∀ m ∈ messages, ∀ f ∈ (message m).fields, f.fullName ∉ messages
  fieldUnique : ∀ m ∈ messages, ∀ m' ∈ messages, ∀ f ∈ (message m).fields,
    ∀ f' ∈ (message m').fields, f.fullName = f'.fullName → m = m' ∧ f = f'

/-- What a creator remembers: a message by its name, an enumeration by that of the field. -/
inductive Item where
  | message (fullName : String)
  | enumField (fullName type : String)
  deriving DecidableEq

def Item.key : Item → String
  | .message fullName => fullName
  | .enumField fullName _ => fullName

def FieldDescriptor.item (f : FieldDescriptor) : Option Item :=
  match f.type with
  | .message fullName => some (.message fullName)
  | .enum fullName => some (.enumField f.fullName fullName)
  | .other => none

/-- `FileDescriptorProto`; a type is copied with all that is declared in it. -/
structure FileDescriptorProto where
  name : String
  package : String
  dependency : List String
  messageType : List String
  enumType : List String
  deriving DecidableEq

/-- `add_message_type` or `add_enum_type`, and the copy. -/
def FileDescriptorProto.addType (item : Item) (fd : FileDescriptorProto) : FileDescriptorProto :=
  match item with
  | .message fullName => { fd with messageType := fd.messageType ++ [fullName] }
  | .enumField _ type => { fd with enumType := fd.enumType ++ [type] }

structure FileDescriptorSetCreator where
  fdSet : List FileDescriptorProto
  knownTypes : List String

namespace FileDescriptorSetCreator

def new : FileDescriptorSetCreator := ⟨[], []⟩

variable (s : FileDescriptorSetCreator)

/-- A file of the package, which is put in front of all others if there is none. -/
def getFileDesc (package : String) : FileDescriptorSetCreator :=
  if ∃ fd ∈ s.fdSet, fd.package = package then s
  else { s with fdSet := ⟨package, package, [], [], []⟩ :: s.fdSet }

/-- Change the file of a package, which no other file shares. -/
def modifyFile (package : String) (f : FileDescriptorProto → FileDescriptorProto) :
    FileDescriptorSetCreator :=
  { s with fdSet := s.fdSet.map fun fd => if fd.package = package then f fd else fd }

def addDependency (fd package : String) : FileDescriptorSetCreator :=
  s.modifyFile fd fun file =>
    if file.package ≠ package ∧ package ∉ file.dependency then
      { file with dependency := file.dependency ++ [package] }
    else file

/-- Describe a type in the file of its package, and remember it. -/
def describe (package : String) (item : Item) : FileDescriptorSetCreator :=
  let s := (s.getFileDesc package).modifyFile package (·.addType item)
  { s with knownTypes := s.knownTypes ++ [item.key] }

end FileDescriptorSetCreator

namespace DescriptorPool

variable (pool : DescriptorPool)

/-- The body of the loop over the fields; `fd` is the package of the message's file. -/
def addField (addMessageDesc : String → FileDescriptorSetCreator → Option FileDescriptorSetCreator)
    (fd : String) (field : FieldDescriptor) (s : FileDescriptorSetCreator) :
    Option FileDescriptorSetCreator :=
  match field.type with
  | .message fullName =>
    addMessageDesc fullName (s.addDependency fd (pool.message fullName).package)
  | .enum fullName =>
    -- the name that is looked up and remembered is that of the field
    if field.fullName ∈ s.knownTypes then some s
    else
      let newTypePackage := (pool.enum fullName).package
      some ((s.addDependency fd newTypePackage).describe newTypePackage
        (.enumField field.fullName fullName))
  | .other => some s

/-- `addMessageDesc`, with a bound on its depth. -/
def addMessageDesc : ℕ → String → FileDescriptorSetCreator → Option FileDescriptorSetCreator
  | 0, _, _ => none
  | fuel + 1, msgDesc, s =>
    if msgDesc ∈ s.knownTypes then some s
    else
      let fd := (pool.message msgDesc).package
      (pool.message msgDesc).fields.foldlM
        (fun s field => pool.addField (addMessageDesc fuel) fd field s)
        (s.describe fd (.message msgDesc))

/-- A sequence of calls. -/
def addMessageDescs (fuel : ℕ) (calls : List String) : Option FileDescriptorSetCreator :=
  calls.foldlM (fun s msgDesc => pool.addMessageDesc fuel msgDesc s) .new

end DescriptorPool

end Octf.Utils
