import Octf.Foundation.ByteMemory
import Octf.Foundation.Word
import Octf.Storage.ProtoConverter

/-! The serializer of trace files: messages are written behind their lengths through a
mapped window that slides over the file, and the file is cut to size in the end. -/
namespace Octf.Storage
open Foundation

/-- The bytes of a file; what lies behind its end reads as zero when the file grows. -/
structure File where
  bytes : Memory
  length : ℕ

namespace File

def contents (f : File) : List UInt8 := f.bytes.load 0 f.length

/-- Make the file at least `n` bytes long. -/
def enlarge (f : File) (n : ℕ) : File :=
  ⟨fun a => if a < f.length then f.bytes a else 0, max f.length n⟩

/-- Cut the file, or fill it up with zeros, to `n` bytes. -/
def truncate (f : File) (n : ℕ) : File := ⟨fun a => if a < f.length then f.bytes a else 0, n⟩

end File

/-- The answers of the operating system: to the allocation and the mapping of the `n`-th
window, and to the calls that close the file. -/
structure FileOps where
  fallocate : ℕ → Bool
  mmap : ℕ → Bool
  ftruncate : Bool
  fchmod : Bool
  fsync : Bool
  close : Bool

/-- An operating system that refuses nothing. -/
structure FileOps.Succeed (ops : FileOps) : Prop where
  fallocate : ∀ n, ops.fallocate n = true
  mmap : ∀ n, ops.mmap n = true
  closes : ops.ftruncate = true ∧ ops.fchmod = true ∧ ops.fsync = true ∧ ops.close = true

/-- A write of `length` bytes at an offset from the mapped address. -/
structure Write where
  offset : ℕ
  length : ℕ
  /-- The length of the window at that time. -/
  window : ℕ
  deriving DecidableEq

def Write.Inside (w : Write) : Prop := w.offset + w.length ≤ w.window

structure FileTraceSerializer where
  isOpen : Bool
  /-- `m_addr` is not null. -/
  isMapped : Bool
  dataOffset : ℕ
  fileOffset : ℕ
  size : ℕ
  outputFileName : String
  pageSize : ℕ
  file : File
  /-- How often a window was allocated. -/
  windows : ℕ
  /-- Whether a file operation has failed. -/
  failed : Bool
  /-- All writes through the window. -/
  writes : List Write

namespace FileTraceSerializer

/-- A serializer that has opened its file. -/
def opened (outputFileName : String) (pageSize : ℕ) (file : File) : FileTraceSerializer :=
  ⟨true, false, 0, 0, 0, outputFileName, pageSize, file, 0, false, []⟩

def moveDataPointer (size : ℕ) (s : FileTraceSerializer) : FileTraceSerializer :=
  { s with dataOffset := add64 s.dataOffset size }

/-- The size is an `uint32_t` here. -/
def isRemapNeeded (offset size : ℕ) (s : FileTraceSerializer) : Bool :=
  let size := size % 2 ^ 32
  let mappedBegin := s.fileOffset
  let mappedEnd := sub64 (add64 s.fileOffset s.size) 1
  let begin := offset
  let end' := sub64 (add64 offset size) 1
  if s.isMapped = false then true
  else if begin < mappedBegin ∨ mappedEnd < begin then true
  else if end' < mappedBegin ∨ mappedEnd < end' then true
  else false

/-- `posix_fallocate` refuses empty and negative lengths and offsets beyond the range of
`off_t`. -/
def posix_fallocate (ops : FileOps) (s : FileTraceSerializer) : Bool :=
  decide (0 ≤ toInt64 s.fileOffset ∧ 0 < toInt64 s.size ∧
    toInt64 s.fileOffset + toInt64 s.size < 2 ^ 63) && ops.fallocate s.windows

/-- The window of `remap` before it is allocated. -/
def placeWindow (offset size : ℕ) (s : FileTraceSerializer) : FileTraceSerializer :=
  let size := size % 2 ^ 32
  let pageOffset := offset / s.pageSize
  let pages := add64 (sub64 (add64 size s.pageSize) 1) (offset % s.pageSize) / s.pageSize
  { s with
    isMapped := false
    fileOffset := mul64 pageOffset s.pageSize
    size := mul64 pages s.pageSize }

def remap (ops : FileOps) (offset size : ℕ) (s : FileTraceSerializer) :
    Except String Unit × FileTraceSerializer :=
  let s := s.placeWindow offset size
  if posix_fallocate ops s then
    let s := { s with
      file := s.file.enlarge (s.fileOffset + s.size)
      windows := s.windows + 1
      isMapped := ops.mmap s.windows }
    if s.isMapped then
      if s.isRemapNeeded offset size then
        (.error ("Failed to properly map file " ++ s.outputFileName), s)
      else (.ok (), s)
    else (.error ("Cannot map file " ++ s.outputFileName), { s with failed := true })
  else (.error ("Cannot allocate space, file " ++ s.outputFileName),
    { s with windows := s.windows + 1, failed := true })

def MiBToBytes (size : ℕ) : ℕ := size <<< 20

/-- The data pointer as an offset from the mapped address. -/
def getBuffer (ops : FileOps) (size : ℕ) (s : FileTraceSerializer) :
    Except String ℕ × FileTraceSerializer :=
  let offset := s.dataOffset
  if s.isRemapNeeded offset size then
    -- at least 1 MiB
    let size := max (MiBToBytes 1) size
    match s.remap ops offset size with
    | (.error message, s) => (.error message, s)
    | (.ok (), s) => (.ok (sub64 offset s.fileOffset), s)
  else (.ok (sub64 offset s.fileOffset), s)

/-- Write through the window. -/
def write (buffer : ℕ) (bytes : List UInt8) (s : FileTraceSerializer) : FileTraceSerializer :=
  { s with
    file := { s.file with bytes := s.file.bytes.store (s.fileOffset + buffer) bytes }
    writes := s.writes ++ [⟨buffer, bytes.length, s.size⟩] }

section Messages

variable {Msg : Type*} (encode : Msg → List UInt8) (ops : FileOps)

/-- A message is written behind its length; `SerializeToArray` refuses what an `int` cannot
count. The buffers are never null, for `getBuffer` returns only if the window is mapped. -/
def serialize (message : Msg) (s : FileTraceSerializer) :
    Except String Bool × FileTraceSerializer :=
  let messageLength := (encode message).length
  match s.getBuffer ops ProtoConverter.MAX_VARINT32_BYTES with
  | (.error message, s) => (.error message, s)
  | (.ok buffer, s) =>
    let (bytes, bytesWritten) :=
      ProtoConverter.encodeVarint32 ProtoConverter.MAX_VARINT32_BYTES (toInt32 messageLength)
    let s := s.write buffer bytes
    if 0 < bytesWritten then
      let s := s.moveDataPointer bytesWritten
      match s.getBuffer ops messageLength with
      | (.error message, s) => (.error message, s)
      | (.ok buffer, s) =>
        if messageLength < 2 ^ 31 then
          (.ok true, (s.write buffer (encode message)).moveDataPointer messageLength)
        else (.ok false, s)
    else (.ok false, s)

/-- The results of the calls, and the serializer behind them. -/
def serializeAll : List Msg → FileTraceSerializer →
    List (Except String Bool) × FileTraceSerializer
  | [], s => ([], s)
  | message :: messages, s =>
    let (result, s) := s.serialize encode ops message
    let (results, s) := serializeAll messages s
    (result :: results, s)

end Messages

/-- `ftruncate` refuses a negative length. -/
def close (ops : FileOps) (s : FileTraceSerializer) : Bool × FileTraceSerializer :=
  if s.isOpen then
    let truncated := decide (0 ≤ toInt64 s.dataOffset) && ops.ftruncate
    let success := truncated && ops.fchmod && ops.fsync && ops.close
    (success, { s with
      isOpen := false
      isMapped := false
      file := if truncated then s.file.truncate s.dataOffset else s.file
      failed := s.failed || !success })
  else (false, s)

end FileTraceSerializer

end Octf.Storage
