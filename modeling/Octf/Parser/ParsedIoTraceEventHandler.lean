import Mathlib.Data.List.AList
import Octf.Parser.Event
import Octf.Parser.IoCache

/-! The handlers of parsed IO, versions 1 and 2: events are cached in a queue until their
completions have come, found there by an id mapping, and pushed out in their order. -/
namespace Octf.Parser
open Foundation

structure Flags where
  flush : Bool
  fua : Bool
  metadata : Bool
  direct : Bool
  readahead : Bool
  deriving DecidableEq

structure ParsedIo where
  lba : ℕ
  len : ℕ
  operation : IoType
  error : Bool
  latency : ℕ
  qd : ℕ
  writeHint : ℕ
  flags : Flags
  deriving DecidableEq

structure DeviceInfo where
  id : ℕ
  name : String
  partition : ℕ
  model : String
  deriving DecidableEq

structure ParsedFile where
  id : ℕ
  offset : ℕ
  size : ℕ
  creationDate : Timestamp
  path : String
  eventType : FsEventType
  deriving DecidableEq

structure ParsedEvent where
  header : EventHeader
  io : Option ParsedIo
  device : DeviceInfo
  file : Option ParsedFile
  tags : List (String × String)
  deriving DecidableEq

/-- The latency of an event without IO reads as zero. -/
def ParsedEvent.latency (event : ParsedEvent) : ℕ := (event.io.map ParsedIo.latency).getD 0

def EventDeviceDescription.empty : EventDeviceDescription := ⟨0, "", 0, ""⟩

def ParsedFile.empty : ParsedFile := ⟨0, 0, 0, ⟨0, 0⟩, "", .UnknownFsEventType⟩

/-- A file by its identifiers; creation dates are compared in nanoseconds of 64 bits. -/
structure FileKey where
  partitionId : ℕ
  id : ℕ
  creationDate : ℤ
  deriving DecidableEq

/-- `std::chrono::nanoseconds` of a `timespec`. -/
def Timestamp.nanoseconds (t : Timestamp) : ℤ := (t.seconds * 10 ^ 9 + t.nanos).bmod (2 ^ 64)

def FileId.key (f : FileId) : FileKey := ⟨f.partitionId, f.id, f.creationDate.nanoseconds⟩

/-- What version 1 remembers of a file. -/
structure FileInfo where
  parent : FileKey
  name : String
  size : ℕ

def FileInfo.empty : FileInfo := ⟨⟨0, 0, 0⟩, "", 0⟩

/-- What the parent handler is called with. -/
inductive Callback where
  | handleIo (io : ParsedEvent)
  | handleDeviceDescription (device : EventDeviceDescription)
  deriving DecidableEq

/-- What the two versions do differently. -/
structure Version where
  flags : EventIo → Flags
  /-- The id a filesystem event refers to. -/
  metaRef : EventIoFilesystemMeta → ℕ
  /-- Whether the names and sizes of files are collected on the way. -/
  tracksFiles : Bool

namespace v1

def OCTF_IO_CLASS_METADATA : ℕ := 1

def OCTF_IO_CLASS_DIRECT : ℕ := 22

def version : Version where
  flags src :=
    { flush := src.flush, fua := src.fua
      metadata := decide (src.ioClass = OCTF_IO_CLASS_METADATA)
      direct := decide (src.ioClass = OCTF_IO_CLASS_DIRECT)
      readahead := false }
  metaRef src := src.refSid
  tracksFiles := true

end v1

namespace v2

def version : Version where
  flags src := ⟨src.flush, src.fua, src.metadata, src.direct, src.readahead⟩
  metaRef src := src.refId
  tracksFiles := false

end v2

/-- What a handler does not change: its version, the filesystem viewer (a path from the files
known so far), the tags of the trace, the exclusive subrange, and whether parsed events are
written to a trace extension. -/
structure Config where
  version : Version
  getFilePath : (FileKey → Option FileInfo) → FileKey → String
  tags : List (String × String)
  subrangeStart : ℕ
  subrangeEnd : ℕ
  isWritable : Bool

structure ParsedIoTraceEventHandler where
  queue : List ParsedEvent
  /-- How many events have left the queue; a pointer to a cached event is its number. -/
  popped : ℕ
  refSid : ℕ
  idMapping : ℕ → Option ℕ
  devices : AList fun _ : ℕ => EventDeviceDescription
  fileInfo : FileKey → Option FileInfo
  timestampOffset : ℕ
  limit : ℕ
  devIoQueueDepth : ℕ → IoQueueDepth
  /-- The calls of the parent handler. -/
  callbacks : List Callback
  /-- The records written to the trace extension. -/
  extTrace : List (ℕ × ParsedEvent)

namespace ParsedIoTraceEventHandler

def QueueLimit : ℕ := 10000

def init : ParsedIoTraceEventHandler where
  queue := []
  popped := 0
  refSid := 0
  idMapping _ := none
  devices := ∅
  fileInfo _ := none
  timestampOffset := 0
  limit := QueueLimit
  devIoQueueDepth _ := ⟨0, 0⟩
  callbacks := []
  extTrace := []

/-- `m_devices[id]` -/
def device (id : ℕ) (s : ParsedIoTraceEventHandler) : EventDeviceDescription :=
  (s.devices.lookup id).getD .empty

/-- `m_devices[id]` adds an empty description. -/
def touchDevice (id : ℕ) (s : ParsedIoTraceEventHandler) : ParsedIoTraceEventHandler :=
  if id ∈ s.devices then s else { s with devices := s.devices.insert id .empty }

/-- The cached event behind a pointer. -/
def cached (pointer : ℕ) (s : ParsedIoTraceEventHandler) : Option ParsedEvent :=
  if s.popped ≤ pointer then s.queue[pointer - s.popped]? else none

/-- Change the cached event behind a pointer. -/
def update (pointer : ℕ) (event : ParsedEvent) (s : ParsedIoTraceEventHandler) :
    ParsedIoTraceEventHandler :=
  if s.popped ≤ pointer then { s with queue := s.queue.set (pointer - s.popped) event } else s

/-- A new event at the end of the queue. -/
def emplace (event : ParsedEvent) (s : ParsedIoTraceEventHandler) : ParsedIoTraceEventHandler :=
  { s with queue := s.queue ++ [event] }

/-- The id stands in the place of the sequence id while the event is cached. -/
def addMapping (id : ℕ) (event : ParsedEvent) (s : ParsedIoTraceEventHandler) :
    ParsedEvent × ParsedIoTraceEventHandler :=
  if id ≠ 0 then
    ({ event with header := { event.header with sid := id } },
      { s with idMapping := Function.update s.idMapping id (some (s.popped + s.queue.length)) })
  else (event, s)

def delMapping (event : ParsedEvent) (s : ParsedIoTraceEventHandler) :
    ParsedEvent × ParsedIoTraceEventHandler :=
  if event.io.isSome then
    ({ event with header := { event.header with sid := 0 } },
      { s with idMapping := Function.update s.idMapping event.header.sid none })
  else (event, s)

def getCachedEventById (id : ℕ) (s : ParsedIoTraceEventHandler) : Option (ℕ × ParsedEvent) :=
  match s.idMapping id with
  | none => none
  | some pointer => (s.cached pointer).map fun event => (pointer, event)

section Handler

variable (c : Config)

/-- Whether IO at these sectors is skipped. -/
def isOutside (lba len : ℕ) : Bool :=
  decide (c.subrangeEnd ≠ 0 ∧ (add64 lba len < c.subrangeStart ∨ c.subrangeEnd < lba))

/-- The first time stamp of the trace, apart from device descriptions. -/
def noteTimestamp (event : Event) (s : ParsedIoTraceEventHandler) : ParsedIoTraceEventHandler :=
  if s.timestampOffset = 0 then
    match event.eventType with
    | .deviceDescription _ => s
    | _ => { s with timestampOffset := event.header.timestamp }
  else s

def acceptDeviceDescription (device : EventDeviceDescription) (s : ParsedIoTraceEventHandler) :
    ParsedIoTraceEventHandler :=
  let devices := s.devices.insert device.id device
  { s with
    devices := devices
    limit := mul64 QueueLimit devices.entries.length
    callbacks := s.callbacks ++ [.handleDeviceDescription device] }

def acceptIo (header : EventHeader) (src : EventIo) (s : ParsedIoTraceEventHandler) :
    ParsedIoTraceEventHandler :=
  if isOutside c src.lba src.len then s
  else
    let depth := s.devIoQueueDepth src.deviceId
    let depth := { depth with value := add64 depth.value 1 }
    let s := { s with devIoQueueDepth := Function.update s.devIoQueueDepth src.deviceId depth }
    let s := s.touchDevice src.deviceId
    let device := s.device src.deviceId
    let event : ParsedEvent :=
      { header := header
        io := some
          { lba := src.lba, len := src.len, operation := src.operation, error := false
            latency := 0, qd := depth.value, writeHint := src.writeHint
            flags := c.version.flags src }
        device := ⟨src.deviceId, device.name, src.deviceId, device.model⟩
        file := none
        tags := [] }
    let (event, s) := s.addMapping src.id event
    s.emplace event

/-- A completion up to the point where the queue is flushed. -/
def acceptIoCompletion (header : EventHeader) (cmpl : EventIoCompletion)
    (s : ParsedIoTraceEventHandler) : ParsedIoTraceEventHandler :=
  match s.getCachedEventById cmpl.refId with
  -- the submission was probably dropped
  | none => s
  | some (pointer, event) =>
    let submissionTime := event.header.timestamp
    let (event, s) := s.delMapping event
    if submissionTime ≤ header.timestamp then
      match event.io with
      | none => s
      | some io =>
        let io := { io with latency := header.timestamp - submissionTime, error := cmpl.error }
        let io := if cmpl.lba ≠ 0 ∧ cmpl.len ≠ 0 then { io with lba := cmpl.lba, len := cmpl.len }
          else io
        let s := s.update pointer { event with io := some io }
        let depth := s.devIoQueueDepth cmpl.deviceId
        if depth.value ≠ 0 then
          let depth := { depth with value := depth.value - 1 }
          { s with devIoQueueDepth := Function.update s.devIoQueueDepth cmpl.deviceId depth }
        else s
    else s.update pointer event

def acceptFilesystemMeta (src : EventIoFilesystemMeta) (s : ParsedIoTraceEventHandler) :
    ParsedIoTraceEventHandler :=
  match s.getCachedEventById (c.version.metaRef src) with
  | none => s
  | some (pointer, event) =>
    let file := event.file.getD .empty
    let partId := src.fileId.partitionId
    let s := s.update pointer { event with
      file := some { file with
        id := src.fileId.id, offset := src.fileOffset, size := src.fileSize
        eventType := .Access, creationDate := src.fileId.creationDate }
      device := { event.device with partition := partId } }
    let s := if partId ∈ s.devices then s
      else
        let s := s.touchDevice event.device.id
        { s with devices := s.devices.insert partId (s.device event.device.id) }
    if c.version.tracksFiles then
      let info := { (s.fileInfo src.fileId.key).getD .empty with size := src.fileSize }
      { s with fileInfo := Function.update s.fileInfo src.fileId.key (some info) }
    else s

def acceptFilesystemFileEvent (header : EventHeader) (src : EventIoFilesystemFileEvent)
    (s : ParsedIoTraceEventHandler) : ParsedIoTraceEventHandler :=
  let partId := src.fileId.partitionId
  let s := s.touchDevice partId
  let device := s.device partId
  let info := (s.fileInfo src.fileId.key).getD .empty
  let file : ParsedFile := { ParsedFile.empty with
    eventType := src.fsEventType, id := src.fileId.id, creationDate := src.fileId.creationDate
    size := if c.version.tracksFiles then info.size else 0 }
  let s := s.emplace
    { header := header, io := none, file := some file, tags := []
      device := ⟨device.id, device.name, partId, device.model⟩ }
  if c.version.tracksFiles then
    let info := if src.fsEventType = .Delete then none else some info
    { s with fileInfo := Function.update s.fileInfo src.fileId.key info }
  else s

def acceptFilesystemFileName (src : EventIoFilesystemFileName) (s : ParsedIoTraceEventHandler) :
    ParsedIoTraceEventHandler :=
  if c.version.tracksFiles then
    let info := (s.fileInfo src.fileId.key).getD .empty
    let info := { info with name := src.fileName, parent := src.fileParentId.key }
    { s with fileInfo := Function.update s.fileInfo src.fileId.key (some info) }
  else s

/-- An event of the trace up to the point where the queue may be flushed. -/
def acceptEvent (event : Event) (s : ParsedIoTraceEventHandler) : ParsedIoTraceEventHandler :=
  let s := s.noteTimestamp event
  match event.eventType with
  | .deviceDescription device => s.acceptDeviceDescription device
  | .io io => s.acceptIo c event.header io
  | .ioCompletion cmpl =>
    if isOutside c cmpl.lba cmpl.len then s else s.acceptIoCompletion event.header cmpl
  | .filesystemMeta src => s.acceptFilesystemMeta c src
  | .filesystemFileEvent src => s.acceptFilesystemFileEvent c event.header src
  | .filesystemFileName src => s.acceptFilesystemFileName c src
  | .notSet => s

/-- The event in front goes to the parent handler. -/
def pushOutEvent (s : ParsedIoTraceEventHandler) : ParsedIoTraceEventHandler :=
  match s.queue with
  | [] => s
  | event :: queue =>
    let (event, s) := s.delMapping event
    let refSid := add64 s.refSid 1
    let depth := s.devIoQueueDepth event.device.id
    let timestamp := if s.timestampOffset < event.header.timestamp then
        event.header.timestamp - s.timestampOffset
      else 0
    let path := fun file : ParsedFile => c.getFilePath s.fileInfo
      ⟨event.device.partition, file.id, file.creationDate.nanoseconds⟩
    let event : ParsedEvent :=
      { header := ⟨refSid, timestamp⟩
        io := event.io.map fun io => { io with qd := sub64 io.qd depth.adjustment }
        device := event.device
        file := event.file.map fun file => { file with path := path file }
        tags := c.tags }
    { s with
      queue := queue
      popped := s.popped + 1
      refSid := refSid
      callbacks := s.callbacks ++ [.handleIo event]
      -- the completion of an IO without latency is taken for lost
      devIoQueueDepth :=
        if event.io.isSome ∧ event.latency = 0 then
          Function.update s.devIoQueueDepth event.device.id
            { depth with adjustment := add64 depth.adjustment 1 }
        else s.devIoQueueDepth
      extTrace := if c.isWritable then s.extTrace ++ [(refSid, event)] else s.extTrace }

/-- The first loop of `flushEvents`; every round shortens the queue. -/
def flushCompleted : (rounds : ℕ) → ParsedIoTraceEventHandler → ParsedIoTraceEventHandler
  | 0, s => s
  | rounds + 1, s =>
    match s.queue with
    | [] => s
    | event :: _ => if event.latency ≠ 0 then flushCompleted rounds (s.pushOutEvent c) else s

/-- The second loop of `flushEvents`. -/
def flushRest (isFinished : Bool) :
    (rounds : ℕ) → ParsedIoTraceEventHandler → ParsedIoTraceEventHandler
  | 0, s => s
  | rounds + 1, s =>
    match s.queue with
    | [] => s
    | _ :: _ =>
      let s := s.pushOutEvent c
      if isFinished = false ∧ s.queue.length < s.limit then s else flushRest isFinished rounds s

def flushEvents (isFinished : Bool) (s : ParsedIoTraceEventHandler) : ParsedIoTraceEventHandler :=
  let s := s.flushCompleted c s.queue.length
  if s.queue.length < s.limit ∧ isFinished = false then s
  else s.flushRest c isFinished s.queue.length

/-- The events behind which the queue is flushed. -/
def flushesAfter (event : Event) : Bool :=
  match event.eventType with
  | .ioCompletion cmpl => !isOutside c cmpl.lba cmpl.len
  | _ => false

def handleEvent (isFinished : Bool) (event : Event) (s : ParsedIoTraceEventHandler) :
    ParsedIoTraceEventHandler :=
  let s := s.acceptEvent c event
  if flushesAfter c event then s.flushEvents c isFinished else s

/-- Every event of the trace; the parser is finished when it has delivered the last one. -/
def handleEvents : List Event → ParsedIoTraceEventHandler → ParsedIoTraceEventHandler
  | [], s => s
  | event :: events, s => handleEvents events (s.handleEvent c events.isEmpty event)

/-- The whole trace is parsed and the queue flushed. -/
def processEvents (events : List Event) : ParsedIoTraceEventHandler :=
  (handleEvents c events init).flushEvents c true

end Handler

end ParsedIoTraceEventHandler

end Octf.Parser
