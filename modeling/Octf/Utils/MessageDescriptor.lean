import Mathlib.Data.List.Nodup

/-! Message descriptors, as far as the walks over the fields of a message read them. Message types
are the values of a type; names are lists of bytes. -/
namespace Octf.Utils.Protobuf

/-- A oneof and the names of its fields. -/
structure OneofDescriptor where
  name : List UInt8
  fields : List (List UInt8)
  deriving DecidableEq

structure FieldDescriptor (M : Type) where
  name : List UInt8
  isRepeated : Bool
  isMap : Bool
  containingOneof : Option OneofDescriptor
  /-- of a field of `TYPE_MESSAGE` -/
  messageType : Option M
  deriving DecidableEq

/-- The descriptors of all message types. The fields of a message have different names. -/
structure Schema (M : Type) where
  fields : M → List (FieldDescriptor M)
  names : ∀ m, ((fields m).map (·.name)).Nodup

/-- What stands between the names in the path of a field. -/
def dot : UInt8 := 46

theorem Schema.nodup_fields {M : Type} (schema : Schema M) (m : M) : (schema.fields m).Nodup :=
  (schema.names m).of_map

end Octf.Utils.Protobuf
