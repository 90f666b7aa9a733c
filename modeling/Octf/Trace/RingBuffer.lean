import Octf.Foundation.ByteMemory
import Octf.Foundation.Word

/-! The trace ring buffer of `trace.c`: one producer and one consumer share a pool that
holds a producer header, a consumer header and a ring of bytes. Every function below is
one function of the source; it takes the handle and the shared memory and returns the
result code together with the memory it leaves behind. -/
namespace Octf.Trace
open Foundation

inductive Errno where
  | ENOSPC | EINVAL | EPERM | EBUSY | EBADF | EAGAIN | ENOBUFS | ENOMEM
  deriving DecidableEq, Repr

def octfTraceMinBufferSize : ℕ := 32 * 1024
def octfTraceHdrSize : ℕ := 4096
def traceVer : ℕ := 1

def traceMagic (a b c d : ℕ) : ℕ := (a <<< 24) ||| (b <<< 16) ||| (c <<< 8) ||| d

def traceMagicBuffer : ℕ := traceMagic 0x1410 0x1683 0x1920 0x1989

/-- `struct trace_producer_hdr`; every field is a 64-bit atomic. -/
structure TraceProducerHdr where
  magic : ℕ
  version : ℕ
  closed : ℕ
  wrPtr : ℕ
  wrLock : ℕ
  lost : ℕ
  hasChdr : ℕ
  deriving DecidableEq

/-- `struct trace_consumer_hdr`. -/
structure TraceConsumerHdr where
  rdPtr : ℕ
  rdLock : ℕ
  deriving DecidableEq

instance : Zero TraceProducerHdr := ⟨⟨0, 0, 0, 0, 0, 0, 0⟩⟩
instance : Zero TraceConsumerHdr := ⟨⟨0, 0⟩⟩

/-- `struct trace_event_hdr`. -/
structure TraceEventHdr where
  ready : Bool
  dataSize : ℕ
  dataPtr : ℕ
  deriving DecidableEq

/-- `sizeof(struct trace_event_hdr)`: a bit-field byte, four and eight packed bytes,
rounded up to the declared alignment of eight. -/
def traceEventHdrSize : ℕ := 16

def traceAlignment : ℕ := traceEventHdrSize

def divRoundUp (x y : ℕ) : ℕ := (x + y - 1) / y

def traceAlign (s : ℕ) : ℕ := divRoundUp s traceAlignment * traceAlignment

inductive OctfTraceOpenMode where
  | producer | consumer
  deriving DecidableEq, Repr

/-- `struct octf_trace`, the handle; its three pointers lead into `Shared`. -/
structure OctfTrace where
  mode : OctfTraceOpenMode
  ringSize : ℕ
  ringSizeAlmostEmpty : ℕ
  deriving DecidableEq

/-- What the two handles share. `bug` records that an `ENV_BUG` assertion has fired,
`outside` that the ring was touched beyond its size and `refused` that the library was
asked for a copy beyond its bound. -/
structure Shared where
  phdr : TraceProducerHdr
  chdr : TraceConsumerHdr
  ring : Memory
  bug : Bool
  outside : Bool
  refused : Bool

/-- `RSIZE_MAX_MEM`, the largest destination that the safe string library takes. -/
def rsizeMaxMem : ℕ := 256 * 2 ^ 20

/-- The two calls into the safe string library, whose results the trace does not look at.
A destination is given by its present contents; the `dmax` of a copy is their length, that
of clearing is `size`. -/
structure SafeString where
  memcpyS : (dest src : List UInt8) → List UInt8
  memsetS : ∀ {α : Type} [Zero α], (size : ℕ) → α → α

/-- What the library documents: a call writes nothing but its destination, and nothing at
all beyond the bound; within it a non-empty copy that fits is made in full, and clearing
clears. -/
structure SafeString.Lawful (lib : SafeString) : Prop where
  length_memcpyS : ∀ dest src, (lib.memcpyS dest src).length = dest.length
  memcpyS_eq : ∀ dest src, 0 < src.length → src.length ≤ dest.length →
    dest.length ≤ rsizeMaxMem → lib.memcpyS dest src = src ++ dest.drop src.length
  memcpyS_refused : ∀ dest src, rsizeMaxMem < dest.length → lib.memcpyS dest src = dest
  memsetS_eq : ∀ {α : Type} [Zero α] {size : ℕ} (x : α), size ≤ rsizeMaxMem →
    lib.memsetS size x = 0
  memsetS_refused : ∀ {α : Type} [Zero α] {size : ℕ} (x : α), rsizeMaxMem < size →
    lib.memsetS size x = x

namespace Shared

def setMagic (m : Shared) (x : ℕ) : Shared := { m with phdr := { m.phdr with magic := x } }
def setWrPtr (m : Shared) (x : ℕ) : Shared := { m with phdr := { m.phdr with wrPtr := x } }
def setWrLock (m : Shared) (x : ℕ) : Shared := { m with phdr := { m.phdr with wrLock := x } }
def setClosed (m : Shared) (x : ℕ) : Shared := { m with phdr := { m.phdr with closed := x } }
def setRdPtr (m : Shared) (x : ℕ) : Shared := { m with chdr := { m.chdr with rdPtr := x } }
def setRdLock (m : Shared) (x : ℕ) : Shared := { m with chdr := { m.chdr with rdLock := x } }

/-- `env_atomic64_add` on the lost counter. -/
def addLost (m : Shared) (n : ℕ) : Shared :=
  { m with phdr := { m.phdr with lost := (m.phdr.lost + n) % 2 ^ 64 } }

def envBug (m : Shared) : Shared := { m with bug := true }

def envBugOn (m : Shared) (cond : Bool) : Shared := { m with bug := m.bug || cond }

/-- Note an access to `n` ring bytes from offset `p` on. -/
def touch (m : Shared) (t : OctfTrace) (p n : ℕ) : Shared :=
  { m with outside := m.outside || decide (t.ringSize < p + n) }

/-- Note a copy to a destination of `dmax` bytes. -/
def noteCopy (m : Shared) (dmax : ℕ) : Shared :=
  { m with refused := m.refused || decide (rsizeMaxMem < dmax) }

end Shared

/-- Decode the event header at ring offset `p`. -/
def readHdr (ring : Memory) (p : ℕ) : TraceEventHdr where
  ready := (ring p).toNat % 2 = 1
  dataSize := littleEndian (ring.load (p + 1) 4)
  dataPtr := littleEndian (ring.load (p + 5) 8)

/-- Assign the `ready` bit of the header at `p`; its neighbours in the byte are kept. -/
def setReady (ring : Memory) (p : ℕ) (ready : Bool) : Memory :=
  ring.store p [UInt8.ofNat ((ring p).toNat / 2 * 2 + ready.toNat)]

/-- Assign all three fields of the header at `p`. -/
def writeHdr (ring : Memory) (p : ℕ) (h : TraceEventHdr) : Memory :=
  ((setReady ring p h.ready).store (p + 5) (toLittleEndian 8 h.dataPtr)).store (p + 1)
    (toLittleEndian 4 h.dataSize)

def isTraceValid (m : Shared) : Bool :=
  m.phdr.magic == traceMagicBuffer && m.phdr.version == traceVer

/-! ### Opening -/

/-- Sizes of the two headers, as the pool layout counts them. -/
def producerHdrSize : ℕ := traceAlign 56
def consumerHdrSize : ℕ := traceAlign octfTraceHdrSize

/-- The ring size, or an error when the pool does not hold the headers. -/
def initRing (size : ℕ) (hdr : Bool) : Except Errno ℕ :=
  if size < producerHdrSize + consumerHdrSize then .error .ENOSPC
  else
    let size := size - producerHdrSize
    let size := if hdr then size else size - consumerHdrSize
    .ok (size / traceAlignment * traceAlignment)

def initProducer (lib : SafeString) (size : ℕ) (hdr : Bool) (m : Shared) :
    Except Errno OctfTrace × Shared :=
  match initRing size hdr with
  | .error e => (.error e, m)
  | .ok ringSize =>
    let m :=
      if hdr then
        let pool := lib.memsetS size (m.phdr, m.ring)
        { m with phdr := pool.1, ring := pool.2, chdr := lib.memsetS octfTraceHdrSize m.chdr }
      else
        let pool := lib.memsetS size (m.phdr, m.chdr, m.ring)
        { m with phdr := pool.1, chdr := pool.2.1, ring := pool.2.2 }
    let m := { m with phdr := { m.phdr with
      magic := traceMagicBuffer, version := traceVer, hasChdr := hdr.toNat } }
    (.ok ⟨.producer, ringSize, ringSize * 2 / 10⟩, m)

def initConsumer (size : ℕ) (hdr : Bool) (m : Shared) : Except Errno OctfTrace :=
  match initRing size hdr with
  | .error e => .error e
  | .ok ringSize =>
    if !isTraceValid m then .error .EINVAL
    else if (m.phdr.hasChdr != 0) != hdr then .error .EINVAL
    else .ok ⟨.consumer, ringSize, ringSize * 2 / 10⟩

/-- `heap` tells whether `env_zalloc` finds memory for the handle. -/
def octfTraceOpen (lib : SafeString) (heap : Bool) (mempoolSize : ℕ) (hdr : Bool)
    (mode : OctfTraceOpenMode) (m : Shared) : Except Errno OctfTrace × Shared :=
  if mempoolSize < octfTraceMinBufferSize then (.error .ENOBUFS, m)
  else if !heap then (.error .ENOMEM, m)
  else match mode with
    | .producer => initProducer lib mempoolSize hdr m
    | .consumer => (initConsumer mempoolSize hdr m, m)

/-! ### Internal auxiliary functions -/

/-- The sum is a 64-bit one; the last test is the source's own overflow check. -/
def integrityCheck (t : OctfTrace) (ptr count : ℕ) : Bool :=
  if t.ringSize ≤ ptr then false
  else if t.ringSize < (ptr + count) % 2 ^ 64 then false
  else if (ptr + count) % 2 ^ 64 < count then false
  else true

def getContinuousSpace (t : OctfTrace) (rdp wrp : ℕ) (m : Shared) : ℕ × Shared :=
  -- inconsistent pointers stop all tracing
  if t.ringSize ≤ wrp then (0, m.setMagic 0)
  else if t.ringSize ≤ rdp then (0, m.setMagic 0)
  else if rdp ≤ wrp then
    if rdp = 0 then (t.ringSize - wrp - 1, m) else (t.ringSize - wrp, m)
  else (rdp - wrp - 1, m)

def getFreeSpace (t : OctfTrace) (rdp wrp : ℕ) : ℕ :=
  let space := if rdp ≤ wrp then sub64 t.ringSize (wrp - rdp) else rdp - wrp
  sub64 space 1

def movePtr (t : OctfTrace) (ptr mv : ℕ) : ℕ :=
  let ptr := (ptr + mv) % 2 ^ 64
  if t.ringSize ≤ ptr then ptr % t.ringSize else ptr

/-! ### Push -/

/-- The compare-and-exchange loop; `retry` counts the attempts that are left. -/
def tryLockWr : (retry : ℕ) → Shared → Bool × Shared
  | 0, m => (false, m)
  | retry + 1, m =>
    if m.phdr.wrLock = 0 then (true, m.setWrLock 1) else tryLockWr retry m

def isWrap (rdp wrp : ℕ) : Bool := rdp < wrp

/-- The last check of `_allocate_event` before it writes: the data must end inside. -/
def checkData (t : OctfTrace) (hdr wrp alignedSize : ℕ) (m : Shared) :
    Option (ℕ × ℕ) × Shared :=
  if t.ringSize < wrp + alignedSize then (none, m.envBug) else (some (hdr, wrp), m)

/-- `_allocate_event` up to there, for the two pointers it has read: the ring offsets of
header and data. -/
def findSpace (t : OctfTrace) (size rdp wrp : ℕ) (m : Shared) : Option (ℕ × ℕ) × Shared :=
  let (space, m) := getContinuousSpace t rdp wrp m
  if space < traceEventHdrSize then (none, m)
  else if t.ringSize < wrp + traceEventHdrSize then (none, m.envBug)
  else
    let hdr := wrp
    let wrp := movePtr t wrp traceEventHdrSize
    -- `_size` is a `uint32_t`
    let alignedSize := traceAlign size % 2 ^ 32
    let (continuous, m) := getContinuousSpace t rdp wrp m
    if continuous < alignedSize then
      if isWrap rdp wrp && rdp != 0 then
        let wrp := movePtr t wrp continuous
        let m := m.envBugOn (wrp != 0)
        let (continuous, m) := getContinuousSpace t rdp wrp m
        if continuous < alignedSize then (none, m) else checkData t hdr wrp alignedSize m
      else (none, m)
    else checkData t hdr wrp alignedSize m

/-- Prepare the header of the new event. -/
def prepareHeader (t : OctfTrace) (hdr wrp size : ℕ) (m : Shared) : Shared :=
  let m := m.touch t hdr traceEventHdrSize
  { m with ring := writeHdr m.ring hdr ⟨false, size, wrp⟩ }

/-- The body of `_allocate_event` under the write lock. -/
def allocateLocked (t : OctfTrace) (size : ℕ) (m : Shared) : Option ℕ × Shared :=
  let wrp := m.phdr.wrPtr
  let rdp := m.chdr.rdPtr
  match findSpace t size rdp wrp m with
  | (none, m) => (none, m)
  | (some (hdr, wrp), m) =>
    (some hdr, (prepareHeader t hdr wrp size m).setWrPtr
      (movePtr t wrp (traceAlign size % 2 ^ 32)))

/-- `_allocate_event`; the result is the ring offset of the event header. -/
def allocateEvent (t : OctfTrace) (size : ℕ) (m : Shared) : Option ℕ × Shared :=
  match tryLockWr 129 m with
  | (false, m) => (none, m)
  | (true, m) =>
    let (result, m) := allocateLocked t size m
    (result, m.setWrLock 0)

/-- `octf_trace_push` of the bytes `event`, whose number is the size argument. -/
def octfTracePush (lib : SafeString) (t : OctfTrace) (event : List UInt8) (m : Shared) :
    Except Errno Unit × Shared :=
  if !isTraceValid m then (.error .EINVAL, m)
  else if t.mode ≠ .producer then (.error .EINVAL, m)
  else match allocateEvent t event.length m with
    | (none, m) => (.error .ENOSPC, m.addLost 1)
    | (some hdr, m) =>
      let h := readHdr m.ring hdr
      if !integrityCheck t h.dataPtr h.dataSize then (.error .EINVAL, (m.setMagic 0).envBug)
      else
        let m := (m.touch t h.dataPtr h.dataSize).noteCopy h.dataSize
        let copied := lib.memcpyS (m.ring.load h.dataPtr h.dataSize) event
        let m := { m with ring := m.ring.store h.dataPtr copied }
        (.ok (), { m with ring := setReady m.ring hdr true })

/-- `octf_trace_get_wr_buffer`; on success the handle and the buffer, as ring offsets. -/
def octfTraceGetWrBuffer (t : OctfTrace) (size : ℕ) (m : Shared) :
    Except Errno (ℕ × ℕ) × Shared :=
  if !isTraceValid m then (.error .EINVAL, m)
  else if t.mode ≠ .producer then (.error .EINVAL, m)
  else match allocateEvent t size m with
    | (none, m) => (.error .ENOSPC, m.addLost 1)
    | (some hdr, m) =>
      let h := readHdr m.ring hdr
      if !integrityCheck t h.dataPtr h.dataSize then (.error .EINVAL, (m.setMagic 0).envBug)
      else (.ok (hdr, h.dataPtr), m)

def octfTraceCommitWrBuffer (t : OctfTrace) (evHndl : ℕ) (m : Shared) :
    Except Errno Unit × Shared :=
  if !isTraceValid m then (.error .EINVAL, m)
  else if t.mode ≠ .producer then (.error .EINVAL, m)
  else
    let m := m.touch t evHndl traceEventHdrSize
    let h := readHdr m.ring evHndl
    if !integrityCheck t h.dataPtr h.dataSize then (.error .EINVAL, (m.setMagic 0).envBug)
    else (.ok (), { m with ring := setReady m.ring evHndl true })

/-! ### Pop -/

def isEmpty (rdp wrp : ℕ) : Bool := rdp == wrp

/-- `_get_rd_hdr`; the result is the ring offset of the event to be read. -/
def getRdHdr (t : OctfTrace) (m : Shared) : Option ℕ × Shared :=
  let ptrRd := m.chdr.rdPtr
  let ptrWr := m.phdr.wrPtr
  if isEmpty ptrRd ptrWr then (none, m)
  else if !integrityCheck t ptrRd traceEventHdrSize then (none, m.envBug)
  else
    let m := m.touch t ptrRd traceEventHdrSize
    if !(readHdr m.ring ptrRd).ready then (none, m) else (some ptrRd, m)

def moveRdPtr (t : OctfTrace) (hdr : ℕ) (m : Shared) : Shared :=
  let h := readHdr m.ring hdr
  m.setRdPtr (movePtr t h.dataPtr (traceAlign h.dataSize))

def tryLockRd (m : Shared) : Bool × Shared :=
  if m.chdr.rdLock = 0 then (true, m.setRdLock 1) else (false, m)

/-- The result of a read that finds no event. -/
def noEvent (m : Shared) : Errno := if m.phdr.closed ≠ 0 then .EBADF else .EAGAIN

/-- `octf_trace_pop` into a buffer that holds the bytes `event`, whose number is the
value of `*size`; on success the new contents and the new value of `*size`. -/
def octfTracePop (lib : SafeString) (t : OctfTrace) (event : List UInt8) (m : Shared) :
    Except Errno (List UInt8 × ℕ) × Shared :=
  if !isTraceValid m then (.error .EINVAL, m)
  else if t.mode ≠ .consumer then (.error .EPERM, m)
  else match tryLockRd m with
    | (false, m) => (.error .EBUSY, m)
    | (true, m) => match getRdHdr t m with
      | (none, m) => (.error (noEvent m), m.setRdLock 0)
      | (some hdr, m) =>
        let h := readHdr m.ring hdr
        if event.length < h.dataSize then (.error .ENOSPC, m.setRdLock 0)
        else if !integrityCheck t h.dataPtr h.dataSize then
          (.error .EINVAL, m.envBug.setRdLock 0)
        else
          let m := (m.touch t h.dataPtr h.dataSize).noteCopy event.length
          let event := lib.memcpyS event (m.ring.load h.dataPtr h.dataSize)
          (.ok (event, h.dataSize), (moveRdPtr t hdr m).setRdLock 0)

/-- `octf_trace_get_rd_buffer`; on success the handle, the buffer and the size. The read
lock stays taken until the release. -/
def octfTraceGetRdBuffer (t : OctfTrace) (m : Shared) :
    Except Errno (ℕ × ℕ × ℕ) × Shared :=
  if !isTraceValid m then (.error .EINVAL, m)
  else if t.mode ≠ .consumer then (.error .EPERM, m)
  else match tryLockRd m with
    | (false, m) => (.error .EBUSY, m)
    | (true, m) => match getRdHdr t m with
      | (none, m) => (.error (noEvent m), m.setRdLock 0)
      | (some hdr, m) =>
        let h := readHdr m.ring hdr
        if !integrityCheck t h.dataPtr h.dataSize then
          (.error .EINVAL, m.envBug.setRdLock 0)
        else (.ok (hdr, h.dataPtr, h.dataSize), m)

def octfTraceReleaseRdBuffer (t : OctfTrace) (evHndl : ℕ) (m : Shared) :
    Except Errno Unit × Shared :=
  if !isTraceValid m then (.error .EINVAL, m)
  else if t.mode ≠ .consumer then (.error .EINVAL, m)
  else
    let m := m.touch t evHndl traceEventHdrSize
    let h := readHdr m.ring evHndl
    if !integrityCheck t h.dataPtr h.dataSize then (.error .EINVAL, (m.setMagic 0).envBug)
    else (.ok (), (moveRdPtr t evHndl m).setRdLock 0)

/-! ### Queries -/

def octfTraceIsEmpty (m : Shared) : Except Errno Bool :=
  if isTraceValid m then .ok (isEmpty m.chdr.rdPtr m.phdr.wrPtr) else .error .EINVAL

def octfTraceGetFreeSpace (t : OctfTrace) (m : Shared) : Except Errno ℕ :=
  if isTraceValid m then .ok (getFreeSpace t m.chdr.rdPtr m.phdr.wrPtr) else .error .EINVAL

end Octf.Trace
