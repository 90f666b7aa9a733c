import Mathlib.Data.Nat.Basic

/-! The trace events as the tracing environment writes them. -/
namespace Octf.Parser

structure EventHeader where
  sid : ℕ
  timestamp : ℕ
  deriving DecidableEq

structure EventDeviceDescription where
  id : ℕ
  name : String
  size : ℕ
  model : String
  deriving DecidableEq

inductive IoType where
  | UnknownIoType | Read | Write | Discard
  deriving DecidableEq

inductive FsEventType where
  | UnknownFsEventType | Create | Delete | MoveTo | MoveFrom | Access
  deriving DecidableEq

structure Timestamp where
  seconds : ℤ
  nanos : ℤ
  deriving DecidableEq

structure FileId where
  partitionId : ℕ
  id : ℕ
  creationDate : Timestamp
  deriving DecidableEq

structure EventIo where
  lba : ℕ
  len : ℕ
  ioClass : ℕ
  deviceId : ℕ
  operation : IoType
  flush : Bool
  fua : Bool
  writeHint : ℕ
  /-- Zero means not set. -/
  id : ℕ
  metadata : Bool
  direct : Bool
  readahead : Bool
  deriving DecidableEq

structure EventIoCompletion where
  lba : ℕ
  len : ℕ
  error : Bool
  deviceId : ℕ
  refId : ℕ
  deriving DecidableEq

structure EventIoFilesystemMeta where
  refSid : ℕ
  fileId : FileId
  fileOffset : ℕ
  fileSize : ℕ
  refId : ℕ
  deriving DecidableEq

structure EventIoFilesystemFileName where
  fileId : FileId
  fileParentId : FileId
  fileName : String
  deriving DecidableEq

structure EventIoFilesystemFileEvent where
  fileId : FileId
  fsEventType : FsEventType
  deriving DecidableEq

inductive EventType where
  | io (e : EventIo)
  | deviceDescription (e : EventDeviceDescription)
  | filesystemMeta (e : EventIoFilesystemMeta)
  | ioCompletion (e : EventIoCompletion)
  | filesystemFileName (e : EventIoFilesystemFileName)
  | filesystemFileEvent (e : EventIoFilesystemFileEvent)
  | notSet
  deriving DecidableEq

structure Event where
  header : EventHeader
  eventType : EventType
  deriving DecidableEq

end Octf.Parser
