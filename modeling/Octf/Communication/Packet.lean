import Mathlib.Data.Int.Basic
import Mathlib.Data.List.Sort

/-! The packets that go over a connection, and what their fields may be. -/
namespace Octf.Communication

structure InterfaceId where
  name : String
  version : ℕ
  deriving DecidableEq

def resultSuccess : ℤ := 0

def resultError : ℤ := -1

/-- The code of a result is an open enumeration. -/
structure MethodResult where
  code : ℤ
  errorMessage : String
  deriving DecidableEq

structure PacketMethodRequest where
  path : List String
  interface : InterfaceId
  mid : ℤ
  sid : ℕ
  request : List UInt8
  deriving DecidableEq

structure PacketMethodResponse where
  mid : ℤ
  refSid : ℕ
  response : List UInt8
  result : Option MethodResult
  deriving DecidableEq

/-- `MAX_PENDING_METHODS` -/
def maxPendingMethods : ℕ := 10000

end Octf.Communication
