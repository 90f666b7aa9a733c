import Octf.Parser.ParsedIoTraceEventHandler

/-! The handler of parsed IO, version 0: completions carry no id, so they are matched by device,
sectors and length with the cached IO for which no latency is set. -/
namespace Octf.Parser.v0
open Foundation

/-- Metadata IO, for example filesystem one -/
def OCTF_IO_CLASS_METADATA : ℕ := 1

/-- Direct IO, for example IO which bypasses memory cache -/
def OCTF_IO_CLASS_DIRECT : ℕ := 22

structure Key where
  deviceId : ℕ
  lba : ℕ
  len : ℕ
  deriving DecidableEq

def ioKey (io : EventIo) : Key := ⟨io.deviceId, io.lba, io.len⟩

def completionKey (cmpl : EventIoCompletion) : Key := ⟨cmpl.deviceId, cmpl.lba, cmpl.len⟩

/-- The sectors of an event without IO read as zero. -/
def parsedKey (event : ParsedEvent) : Key :=
  ⟨event.device.id, (event.io.map ParsedIo.lba).getD 0, (event.io.map ParsedIo.len).getD 0⟩

/-- The filesystem viewer (a path from the files known so far) and the exclusive subrange. -/
structure Config where
  getFilePath : (FileKey → Option FileInfo) → FileKey → String
  subrangeStart : ℕ
  subrangeEnd : ℕ

structure ParsedIoTraceEventHandler where
  /-- The cached events with their addresses. -/
  queue : List (ℕ × ParsedEvent)
  /-- How many events have been cached; the next one gets this address. -/
  allocated : ℕ
  eventMapping : Key → List ℕ
  sidMapping : ℕ → Option ℕ
  devices : AList fun _ : ℕ => EventDeviceDescription
  fileInfo : FileKey → Option FileInfo
  timestampOffset : ℕ
  sidOffset : ℕ
  limit : ℕ
  devIoQueueDepth : ℕ → IoQueueDepth
  /-- The addresses of the events for which a completion has set the latency, first to last. -/
  latencySet : List ℕ
  callbacks : List Callback
  /-- An exception has ended the processing. -/
  thrown : Bool

namespace ParsedIoTraceEventHandler

def QueueLimit : ℕ := 10000

def init : ParsedIoTraceEventHandler where
  queue := []
  allocated := 0
  eventMapping _ := []
  sidMapping _ := none
  devices := ∅
  fileInfo _ := none
  timestampOffset := 0
  sidOffset := 0
  limit := QueueLimit
  devIoQueueDepth _ := ⟨0, 0⟩
  latencySet := []
  callbacks := []
  thrown := false

variable (s : ParsedIoTraceEventHandler)

/-- `m_devices[id]` -/
def device (id : ℕ) : EventDeviceDescription := (s.devices.lookup id).getD .empty

/-- `m_devices[id]` adds an empty description. -/
def touchDevice (id : ℕ) : ParsedIoTraceEventHandler :=
  if id ∈ s.devices then s else { s with devices := s.devices.insert id .empty }

/-- The cached event at an address. -/
def cached (pointer : ℕ) : Option ParsedEvent :=
  (s.queue.find? fun entry => entry.1 = pointer).map Prod.snd

/-- Change the cached event at an address. -/
def update (pointer : ℕ) (f : ParsedEvent → ParsedEvent) : ParsedIoTraceEventHandler :=
  { s with queue := s.queue.map fun entry =>
      if entry.1 = pointer then (entry.1, f entry.2) else entry }

/-- A new event at the end of the queue. -/
def emplace (event : ParsedEvent) : ParsedIoTraceEventHandler :=
  { s with queue := s.queue ++ [(s.allocated, event)], allocated := s.allocated + 1 }

/-- `Map::add` -/
def addMapping (key : Key) (pointer : ℕ) : ParsedIoTraceEventHandler :=
  { s with eventMapping := Function.update s.eventMapping key (s.eventMapping key ++ [pointer]) }

/-- `Map::get`: the first event of the list whose latency equals zero, that is, not set yet. -/
def get (key : Key) : Option (ℕ × ParsedEvent) :=
  (s.eventMapping key).findSome? fun pointer =>
    (s.cached pointer).bind fun event => if event.latency = 0 then some (pointer, event) else none

/-- `Map::erase`: the first event of the list with the sequence id. -/
def eraseMapping (key : Key) (sid : ℕ) : ParsedIoTraceEventHandler :=
  { s with eventMapping := Function.update s.eventMapping key <|
      (s.eventMapping key).eraseP fun pointer =>
        (s.cached pointer).any fun event => event.header.sid = sid }

/-- The depth once a completion has no request that it could belong to. -/
def adjustDepth (device : ℕ) : ParsedIoTraceEventHandler :=
  let depth := s.devIoQueueDepth device
  let depth := if depth.adjustment ≠ 0 then { depth with adjustment := depth.adjustment - 1 }
    else depth
  { s with devIoQueueDepth := Function.update s.devIoQueueDepth device depth }

/-- The depth once a request is completed. -/
def lowerDepth (device : ℕ) : ParsedIoTraceEventHandler :=
  let depth := s.devIoQueueDepth device
  let depth := if depth.value ≠ 0 then
      -- taking into account the adjustment, zero was reached
      if depth.value - 1 < depth.adjustment then ⟨0, 0⟩
      else { depth with value := depth.value - 1 }
    else depth
  { s with devIoQueueDepth := Function.update s.devIoQueueDepth device depth }

section Handler

variable (c : Config)

/-- Whether IO at these sectors is skipped. -/
def isOutside (lba len : ℕ) : Bool :=
  decide (c.subrangeEnd ≠ 0 ∧ (add64 lba len < c.subrangeStart ∨ c.subrangeEnd < lba))

/-- The time stamp and sequence id of the first event. -/
def noteOffsets (header : EventHeader) : ParsedIoTraceEventHandler :=
  if s.timestampOffset = 0 then
    { s with timestampOffset := header.timestamp, sidOffset := header.sid }
  else s

def acceptDeviceDescription (device : EventDeviceDescription) : ParsedIoTraceEventHandler :=
  let devices := s.devices.insert device.id device
  { s with
    devices := devices
    limit := mul64 QueueLimit devices.entries.length
    callbacks := s.callbacks ++ [.handleDeviceDescription device] }

def acceptIo (header : EventHeader) (src : EventIo) : ParsedIoTraceEventHandler :=
  if isOutside c src.lba src.len then s
  else
    let depth := s.devIoQueueDepth src.deviceId
    let depth := { depth with value := add64 depth.value 1 }
    let s := { s with devIoQueueDepth := Function.update s.devIoQueueDepth src.deviceId depth }
    let s := s.touchDevice src.deviceId
    let pointer := s.allocated
    let s := s.emplace
      { header := header
        io := some
          { lba := src.lba, len := src.len, operation := src.operation, error := false
            latency := 0, qd := depth.value, writeHint := src.writeHint
            flags :=
              { flush := src.flush, fua := src.fua
                metadata := decide (src.ioClass = OCTF_IO_CLASS_METADATA)
                direct := decide (src.ioClass = OCTF_IO_CLASS_DIRECT)
                readahead := false } }
        device := ⟨src.deviceId, (s.device src.deviceId).name, src.deviceId, ""⟩
        file := none
        tags := [] }
    let s := s.addMapping (ioKey src) pointer
    match s.sidMapping header.sid with
    | none => { s with sidMapping := Function.update s.sidMapping header.sid (some pointer) }
    | some _ => { s with thrown := true }

/-- The latency and the result of a completed IO. -/
def complete (header : EventHeader) (cmpl : EventIoCompletion) (event : ParsedEvent) :
    ParsedEvent :=
  { event with io := event.io.map fun io => { io with
      latency := header.timestamp - event.header.timestamp, error := cmpl.error } }

/-- A completion up to the point where the queue is flushed. -/
def acceptIoCompletion (header : EventHeader) (cmpl : EventIoCompletion) :
    ParsedIoTraceEventHandler :=
  match s.get (completionKey cmpl) with
  -- the submission was probably dropped
  | none => s.adjustDepth cmpl.deviceId
  | some (pointer, event) =>
    if header.timestamp < event.header.timestamp then s.adjustDepth cmpl.deviceId
    else
      let s := s.update pointer (complete header cmpl)
      { s with latencySet := s.latencySet ++ [pointer] }.lowerDepth cmpl.deviceId

/-- The access to a file by a cached IO. -/
def accessFile (src : EventIoFilesystemMeta) (event : ParsedEvent) : ParsedEvent :=
  { event with
    file := some { event.file.getD .empty with
      id := src.fileId.id, offset := src.fileOffset, size := src.fileSize
      eventType := .Access, creationDate := src.fileId.creationDate }
    device := { event.device with partition := src.fileId.partitionId } }

def acceptFilesystemMeta (src : EventIoFilesystemMeta) : ParsedIoTraceEventHandler :=
  match s.sidMapping src.refSid with
  | none => s
  | some pointer =>
    let partId := src.fileId.partitionId
    let deviceId := ((s.cached pointer).map fun event => event.device.id).getD 0
    let s := s.update pointer (accessFile src)
    let s := if partId ∈ s.devices then s
      else
        let s := s.touchDevice deviceId
        { s with devices := s.devices.insert partId (s.device deviceId) }
    let info := { (s.fileInfo src.fileId.key).getD .empty with size := src.fileSize }
    { s with fileInfo := Function.update s.fileInfo src.fileId.key (some info) }

def acceptFilesystemFileEvent (header : EventHeader) (src : EventIoFilesystemFileEvent) :
    ParsedIoTraceEventHandler :=
  let partId := src.fileId.partitionId
  let s := s.touchDevice partId
  let device := s.device partId
  let info := (s.fileInfo src.fileId.key).getD .empty
  let s := s.emplace
    { header := header
      io := none
      device := ⟨device.id, device.name, partId, ""⟩
      file := some { ParsedFile.empty with
        eventType := src.fsEventType, id := src.fileId.id
        creationDate := src.fileId.creationDate, size := info.size }
      tags := [] }
  let info := if src.fsEventType = .Delete then none else some info
  { s with fileInfo := Function.update s.fileInfo src.fileId.key info }

def acceptFilesystemFileName (src : EventIoFilesystemFileName) : ParsedIoTraceEventHandler :=
  let info := (s.fileInfo src.fileId.key).getD .empty
  let info := { info with name := src.fileName, parent := src.fileParentId.key }
  { s with fileInfo := Function.update s.fileInfo src.fileId.key (some info) }

/-- An event of the trace up to the point where the queue may be flushed. -/
def acceptEvent (event : Event) : ParsedIoTraceEventHandler :=
  let s := s.noteOffsets event.header
  match event.eventType with
  | .deviceDescription device => s.acceptDeviceDescription device
  | .io io => s.acceptIo c event.header io
  | .ioCompletion cmpl =>
    if isOutside c cmpl.lba cmpl.len then s else s.acceptIoCompletion event.header cmpl
  | .filesystemMeta src => s.acceptFilesystemMeta src
  | .filesystemFileEvent src => s.acceptFilesystemFileEvent event.header src
  | .filesystemFileName src => s.acceptFilesystemFileName src
  | .notSet => s

/-- The event in front goes to the parent handler. -/
def pushOutEvent : ParsedIoTraceEventHandler :=
  match s.queue with
  | [] => s
  | (_, event) :: queue =>
    let sid := event.header.sid
    let s := { s with sidMapping := Function.update s.sidMapping sid none }
    let s := s.eraseMapping (parsedKey event) sid
    let depth := s.devIoQueueDepth event.device.id
    let timestamp := if s.timestampOffset < event.header.timestamp then
        event.header.timestamp - s.timestampOffset
      else 0
    let path := fun file : ParsedFile => c.getFilePath s.fileInfo
      ⟨event.device.partition, file.id, file.creationDate.nanoseconds⟩
    let event : ParsedEvent := { event with
      header := ⟨sub64 sid s.sidOffset, timestamp⟩
      io := event.io.map fun io => { io with
        qd := if depth.adjustment < io.qd then io.qd - depth.adjustment else 1 }
      file := event.file.map fun file => { file with path := path file } }
    { s with
      queue := queue
      callbacks := s.callbacks ++ [.handleIo event]
      -- the completion of an IO without latency is taken for lost
      devIoQueueDepth :=
        if event.io.isSome ∧ event.latency = 0 then
          Function.update s.devIoQueueDepth event.device.id
            { depth with adjustment := add64 depth.adjustment 1 }
        else s.devIoQueueDepth }

/-- The first loop of `flushEvents`; every round shortens the queue. -/
def flushCompleted : (rounds : ℕ) → ParsedIoTraceEventHandler → ParsedIoTraceEventHandler
  | 0, s => s
  | rounds + 1, s =>
    match s.queue with
    | [] => s
    | (_, event) :: _ =>
      if event.latency ≠ 0 then flushCompleted rounds (s.pushOutEvent c) else s

/-- The second loop of `flushEvents`. -/
def flushRest (isFinished : Bool) :
    (rounds : ℕ) → ParsedIoTraceEventHandler → ParsedIoTraceEventHandler
  | 0, s => s
  | rounds + 1, s =>
    match s.queue with
    | [] => s
    | _ :: _ =>
      let s := s.pushOutEvent c
      if isFinished = false ∧ s.queue.length < s.limit then s else flushRest isFinished rounds s

def flushEvents (isFinished : Bool) : ParsedIoTraceEventHandler :=
  let s := s.flushCompleted c s.queue.length
  if s.queue.length < s.limit ∧ isFinished = false then s
  else s.flushRest c isFinished s.queue.length

/-- The events behind which the queue is flushed. -/
def flushesAfter (event : Event) : Bool :=
  match event.eventType with
  | .ioCompletion cmpl => !isOutside c cmpl.lba cmpl.len
  | _ => false

/-- One event, and whether the parser is finished behind it. -/
def handleEvent (op : Event × Bool) : ParsedIoTraceEventHandler :=
  if s.thrown then s
  else
    let s := s.acceptEvent c op.1
    if flushesAfter c op.1 then s.flushEvents c op.2 else s

end Handler

end ParsedIoTraceEventHandler

end Octf.Parser.v0
