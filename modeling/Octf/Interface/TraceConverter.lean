import Octf.Foundation.ByteMemory
import Octf.Parser.Event

/-! The converter of raw trace events. It keeps one message for each kind of event, and fills it
anew, field by field, for every event of that kind. -/
namespace Octf.Interface
open Foundation Octf.Parser

/-! ### Raw events -/

def u8 (m : Memory) (p : ℕ) : ℕ := (m p).toNat
@[irreducible] def u32 (m : Memory) (p : ℕ) : ℕ := littleEndian (m.load p 4)
@[irreducible] def u64 (m : Memory) (p : ℕ) : ℕ := littleEndian (m.load p 8)

/-- Two's complement. -/
def s32 (m : Memory) (p : ℕ) : ℤ := (u32 m p : ℤ).bmod (2 ^ 32)
def s64 (m : Memory) (p : ℕ) : ℤ := (u64 m p : ℤ).bmod (2 ^ 64)

def iotraceEventHdrSize : ℕ := 24
def iotraceEventDeviceDescSize : ℕ := 552
def iotraceEventSize : ℕ := 64
def iotraceEventCompletionSize : ℕ := 56
def iotraceEventFsMetaSize : ℕ := 80
def iotraceEventFsFileNameSize : ℕ := 144
def iotraceEventFsFileEventSize : ℕ := 64

/-- `hdr->type` -/
def hdrType (m : Memory) : ℕ := u32 m 16

/-- `fs_event_type` of a file event -/
def fsEventType (m : Memory) : ℕ := u32 m 56

/-- One call: the memory from the event on, how much of it can be read, and the size given. -/
structure RawEvent where
  memory : Memory
  extent : ℕ
  size : ℕ

/-- The number of bytes before the first zero, with the bytes that can be read as fuel. -/
def strlen (m : Memory) (p : ℕ) : ℕ → Option ℕ
  | 0 => none
  | fuel + 1 => if m p = 0 then some 0 else (strlen m (p + 1) fuel).map (· + 1)

/-- A name field, and how many bytes from its beginning on were asked for. -/
structure NameRead where
  offset : ℕ
  fieldSize : ℕ
  count : ℕ
  deriving DecidableEq

/-- A byte of a name is the character with its number. -/
def text (bytes : List UInt8) : String := String.ofList (bytes.map fun b => Char.ofNat b.toNat)

/-- Copy a C string; there is none where the memory ends before a zero. -/
@[irreducible] def RawEvent.readName (raw : RawEvent) (offset fieldSize : ℕ) :
    Option String × NameRead :=
  match strlen raw.memory offset (raw.extent - offset) with
  | some n => (some (text (raw.memory.load offset n)), ⟨offset, fieldSize, n + 1⟩)
  | none => (none, ⟨offset, fieldSize, raw.extent - offset + 1⟩)

/-! ### Messages -/

def newEvent : Event := ⟨⟨0, 0⟩, .notSet⟩

/-- `mutable_header`, with both of its fields set. -/
def setHeader (m : Memory) (e : Event) : Event := { e with header := ⟨u64 m 0, u64 m 8⟩ }

def mutableIo (e : Event) : EventIo :=
  match e.eventType with
  | .io x => x
  | _ => ⟨0, 0, 0, 0, .UnknownIoType, false, false, 0, 0, false, false, false⟩

def mutableFilesystemMeta (e : Event) : EventIoFilesystemMeta :=
  match e.eventType with
  | .filesystemMeta x => x
  | _ => ⟨0, ⟨0, 0, ⟨0, 0⟩⟩, 0, 0, 0⟩

def mutableFilesystemFileEvent (e : Event) : EventIoFilesystemFileEvent :=
  match e.eventType with
  | .filesystemFileEvent x => x
  | _ => ⟨⟨0, 0, ⟨0, 0⟩⟩, .UnknownFsEventType⟩

@[simp] theorem mutableIo_setHeader (m : Memory) (e : Event) :
    mutableIo (setHeader m e) = mutableIo e := by
  simp only [mutableIo, setHeader]

@[simp] theorem mutableFilesystemMeta_setHeader (m : Memory) (e : Event) :
    mutableFilesystemMeta (setHeader m e) = mutableFilesystemMeta e := by
  simp only [mutableFilesystemMeta, setHeader]

@[simp] theorem mutableFilesystemFileEvent_setHeader (m : Memory) (e : Event) :
    mutableFilesystemFileEvent (setHeader m e) = mutableFilesystemFileEvent e := by
  simp only [mutableFilesystemFileEvent, setHeader]

/-- All fields of a file id, from the raw one at `p`; the nanoseconds are cut to 32 bits. -/
def setFileId (partition : ℕ) (m : Memory) (p : ℕ) : FileId :=
  ⟨partition, u64 m p, ⟨s64 m (p + 8), (s64 m (p + 16)).bmod (2 ^ 32)⟩⟩

structure TraceConverter where
  evDesc : Event
  evIo : Event
  evIoCmpl : Event
  evFsMeta : Event
  evFsFileName : Event
  evFsFileEvent : Event

/-- What a call returns, unless it reads past the memory, and what it read as names. -/
structure Conversion where
  message : Option (Option Event)
  nameReads : List NameRead

namespace TraceConverter

def new : TraceConverter := ⟨newEvent, newEvent, newEvent, newEvent, newEvent, newEvent⟩

def nullptr : Conversion := ⟨some none, []⟩

variable (t : TraceConverter) (raw : RawEvent)

def convertDesc : Conversion × TraceConverter :=
  let m := raw.memory
  let e := setHeader m t.evDesc
  match raw.readName 40 256 with
  | (none, name) => (⟨none, [name]⟩, { t with evDesc := e })
  | (some name, nameRead) => match raw.readName 296 256 with
    | (none, model) => (⟨none, [nameRead, model]⟩, { t with evDesc := e })
    | (some model, modelRead) =>
      let e := { e with eventType := .deviceDescription ⟨u64 m 24, name, u64 m 32, model⟩ }
      (⟨some (some e), [nameRead, modelRead]⟩, { t with evDesc := e })

/-- `iotrace_event_operation_t` -/
def operation (m : Memory) : Option IoType :=
  if u8 m 56 = 82 then some .Read
  else if u8 m 56 = 87 then some .Write
  else if u8 m 56 = 68 then some .Discard
  else none

def convertIo : Conversion × TraceConverter :=
  let m := raw.memory
  let e := setHeader m t.evIo
  let protoIo := mutableIo e
  match operation m with
  | none => (nullptr, { t with evIo := { e with eventType := .io protoIo } })
  | some operation =>
    let protoIo := { protoIo with
      operation := operation
      flush := (u32 m 52).testBit 0
      fua := (u32 m 52).testBit 1
      metadata := (u32 m 52).testBit 2
      direct := (u32 m 52).testBit 3
      readahead := (u32 m 52).testBit 4
      lba := u64 m 32
      len := u32 m 40
      deviceId := u32 m 48
      writeHint := u8 m 57
      id := u64 m 24 }
    let e := { e with eventType := .io protoIo }
    (⟨some (some e), []⟩, { t with evIo := e })

def convertIoCmpl : Conversion × TraceConverter :=
  let m := raw.memory
  let e := { setHeader m t.evIoCmpl with
    eventType := .ioCompletion ⟨u64 m 32, u32 m 40, s32 m 44 ≠ 0, u32 m 48, u64 m 24⟩ }
  (⟨some (some e), []⟩, { t with evIoCmpl := e })

def convertFsMeta : Conversion × TraceConverter :=
  let m := raw.memory
  let e := setHeader m t.evFsMeta
  let e := { e with
    eventType := .filesystemMeta { mutableFilesystemMeta e with
      refId := u64 m 24
      fileOffset := u64 m 56
      fileSize := u64 m 64
      fileId := setFileId (u64 m 72) m 32 } }
  (⟨some (some e), []⟩, { t with evFsMeta := e })

def convertFsFileName : Conversion × TraceConverter :=
  let m := raw.memory
  let e := setHeader m t.evFsFileName
  match raw.readName 80 64 with
  | (none, name) => (⟨none, [name]⟩, { t with evFsFileName := e })
  | (some name, nameRead) =>
    let fileName := ⟨setFileId (u64 m 24) m 32, setFileId (u64 m 24) m 56, name⟩
    let e := { e with eventType := .filesystemFileName fileName }
    (⟨some (some e), [nameRead]⟩, { t with evFsFileName := e })

def fsEventTypeOf (fsEventType : ℕ) (previous : FsEventType) : FsEventType :=
  match fsEventType with
  | 0 => .Create
  | 1 => .Delete
  | 2 => .MoveTo
  | 3 => .MoveFrom
  -- no case of the switch: the field keeps its value
  | _ => previous

def convertFsFileEvent : Conversion × TraceConverter :=
  let m := raw.memory
  let e := setHeader m t.evFsFileEvent
  let previous := (mutableFilesystemFileEvent e).fsEventType
  let fileEvent := ⟨setFileId (u64 m 24) m 32, fsEventTypeOf (fsEventType m) previous⟩
  let e := { e with eventType := .filesystemFileEvent fileEvent }
  (⟨some (some e), []⟩, { t with evFsFileEvent := e })

def convertTrace : Conversion × TraceConverter :=
  if raw.size < iotraceEventHdrSize then (nullptr, t)
  else match hdrType raw.memory with
    | 0 => if raw.size ≠ iotraceEventDeviceDescSize then (nullptr, t) else t.convertDesc raw
    | 1 => if raw.size ≠ iotraceEventSize then (nullptr, t) else t.convertIo raw
    | 2 => if raw.size ≠ iotraceEventCompletionSize then (nullptr, t) else t.convertIoCmpl raw
    | 3 => if raw.size ≠ iotraceEventFsMetaSize then (nullptr, t) else t.convertFsMeta raw
    | 4 => if raw.size ≠ iotraceEventFsFileNameSize then (nullptr, t) else t.convertFsFileName raw
    | 5 => if raw.size ≠ iotraceEventFsFileEventSize then (nullptr, t) else t.convertFsFileEvent raw
    | _ => (nullptr, t)

end TraceConverter

end Octf.Interface
