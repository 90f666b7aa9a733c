import Octf.Trace.Accounting

/-! The same two sides, one access to the shared memory at a time. Each side is a program
counter with the local variables of the call it is in; a turn lets one side make its next
access. The calls are those of `RingBuffer`, cut at their atomic accesses. -/
namespace Octf.Trace
open Foundation

/-- What an event is allocated for. -/
inductive Request where
  | push (event : List UInt8)
  | getWrBuffer (size : ℕ)

def Request.size : Request → ℕ
  | .push event => event.length
  | .getWrBuffer size => size

inductive ProducerCall where
  | request (r : Request)
  | fill (i off : ℕ) (bytes : List UInt8)
  | commitWrBuffer (i : ℕ)
  | close

/-- The access the producer makes next. -/
inductive ProducerPc where
  | idle
  /-- `_try_lock_wr` -/
  | lockWr (r : Request)
  /-- `env_atomic64_read(&trace->phdr->wr_ptr)` -/
  | readWrPtr (r : Request)
  /-- `env_atomic64_read(&trace->chdr->rd_ptr)` -/
  | readRdPtr (r : Request) (wrp : ℕ)
  /-- find space and prepare the header -/
  | prepare (r : Request) (wrp rdp : ℕ)
  /-- publish the event -/
  | setWrPtr (r : Request) (hdr wrp : ℕ)
  | unlockWr (r : Request) (result : Option ℕ)
  /-- `env_atomic64_inc(&trace->phdr->lost)` -/
  | incLost
  /-- the integrity check of a published event -/
  | check (r : Request) (hdr : ℕ)
  | copy (event : List UInt8) (hdr : ℕ)
  /-- the integrity check of a commit -/
  | checkCommit (i hdr : ℕ)
  /-- `hdr->ready = true` -/
  | setReady (i hdr : ℕ)
  /-- `env_atomic64_set(&_trace->phdr->closed, 1)` -/
  | setClosed
  /-- the handle is gone -/
  | closed

/-- What an event is read for. -/
inductive Reader where
  | pop (buffer : List UInt8)
  | getRdBuffer

inductive ConsumerCall where
  | read (r : Reader)
  | releaseRdBuffer

/-- The access the consumer makes next. -/
inductive ConsumerPc where
  /-- between calls; the error of the last one, if it failed -/
  | idle (answer : Option Errno)
  /-- `_try_lock_rd` -/
  | lockRd (r : Reader)
  /-- `env_atomic64_read(&trace->chdr->rd_ptr)` -/
  | readRdPtr (r : Reader)
  /-- `env_atomic64_read(&trace->phdr->wr_ptr)` -/
  | readWrPtr (r : Reader) (rdp : ℕ)
  /-- `hdr->ready` -/
  | readReady (r : Reader) (rdp : ℕ)
  /-- no event to be read: `env_atomic64_read(&trace->phdr->closed)` -/
  | readClosed
  /-- read the rest of the header, and for a pop copy the event -/
  | take (r : Reader) (hdr : ℕ)
  /-- `_move_rd_ptr` of a pop -/
  | moveRdPtr (hdr : ℕ) (event : ℕ × List UInt8)
  | unlockRd (answer : Option Errno)
  /-- `_move_rd_ptr` of a release -/
  | release (hdr : ℕ)

/-- One turn of the producer; `call` is what it does next when it is between calls. -/
def producerStep (h : Handles) (call : ProducerCall) (s : Session) :
    ProducerPc → Session × ProducerPc
  | .idle =>
    match call with
    | .request r =>
      if !isTraceValid s.shared || h.producer.mode != .producer then (s, .idle)
      else (s, .lockWr r)
    | .fill i off bytes => (s.fill h i off bytes, .idle)
    | .commitWrBuffer i =>
      match s.accepted[i]? with
      | some e =>
        if e.committed then (s, .idle)
        else if !isTraceValid s.shared || h.producer.mode != .producer then (s, .idle)
        else (s, .checkCommit i e.hdr)
      | none => (s, .idle)
    | .close =>
      if h.producer.mode = .producer then
        if isTraceValid s.shared then (s, .setClosed) else (s, .closed)
      else (s, .closed)
  | .lockWr r =>
    match tryLockWr 129 s.shared with
    | (false, m) => ({ s with shared := m }, .incLost)
    | (true, m) => ({ s with shared := m }, .readWrPtr r)
  | .readWrPtr r => (s, .readRdPtr r s.shared.phdr.wrPtr)
  | .readRdPtr r wrp => (s, .prepare r wrp s.shared.chdr.rdPtr)
  | .prepare r wrp rdp =>
    match findSpace h.producer r.size rdp wrp s.shared with
    | (none, m) => ({ s with shared := m }, .unlockWr r none)
    | (some (hdr, wrp), m) =>
      ({ s with shared := prepareHeader h.producer hdr wrp r.size m },
        .setWrPtr r hdr (Trace.movePtr h.producer wrp (traceAlign r.size % 2 ^ 32)))
  | .setWrPtr r hdr wrp =>
    let ptr := (readHdr s.shared.ring hdr).dataPtr
    ({ s with
      shared := s.shared.setWrPtr wrp
      accepted := s.accepted ++ [⟨⟨hdr, ptr, r.size⟩, s.shared.ring.load ptr r.size, false⟩] },
      .unlockWr r (some hdr))
  | .unlockWr r result =>
    ({ s with shared := s.shared.setWrLock 0 },
      match result with
      | none => .incLost
      | some hdr => .check r hdr)
  | .incLost => ({ s with shared := s.shared.addLost 1 }, .idle)
  | .check r hdr =>
    let hd := readHdr s.shared.ring hdr
    if !integrityCheck h.producer hd.dataPtr hd.dataSize then
      ({ s with shared := (s.shared.setMagic 0).envBug }, .idle)
    else match r with
      | .push event => (s, .copy event hdr)
      | .getWrBuffer _ => (s, .idle)
  | .copy event hdr =>
    let hd := readHdr s.shared.ring hdr
    let m := (s.shared.touch h.producer hd.dataPtr hd.dataSize).noteCopy hd.dataSize
    let copied := h.lib.memcpyS (m.ring.load hd.dataPtr hd.dataSize) event
    -- the event of a push is the last one accepted
    let i := s.accepted.length - 1
    ({ s with
      shared := { m with ring := m.ring.store hd.dataPtr copied }
      accepted := s.accepted.modify i fun e => { e with bytes := event } }, .setReady i hdr)
  | .checkCommit i hdr =>
    let m := s.shared.touch h.producer hdr traceEventHdrSize
    let hd := readHdr m.ring hdr
    if !integrityCheck h.producer hd.dataPtr hd.dataSize then
      ({ s with shared := (m.setMagic 0).envBug }, .idle)
    else ({ s with shared := m }, .setReady i hdr)
  | .setReady i hdr =>
    ({ s with
      shared := { s.shared with ring := setReady s.shared.ring hdr true }
      accepted := s.accepted.modify i fun e => { e with committed := true } }, .idle)
  | .setClosed => ({ s with shared := s.shared.setClosed 1 }, .closed)
  | .closed => (s, .closed)

/-- One turn of the consumer. -/
def consumerStep (h : Handles) (call : ConsumerCall) (s : Session) :
    ConsumerPc → Session × ConsumerPc
  | .idle _ =>
    match call with
    | .read r =>
      if !isTraceValid s.shared then (s, .idle (some .EINVAL))
      else if h.consumer.mode ≠ .consumer then (s, .idle (some .EPERM))
      else (s, .lockRd r)
    | .releaseRdBuffer =>
      match s.held with
      | none => (s, .idle none)
      | some hdr =>
        if !isTraceValid s.shared || h.consumer.mode != .consumer then
          (s, .idle (some .EINVAL))
        else
          let m := s.shared.touch h.consumer hdr traceEventHdrSize
          let hd := readHdr m.ring hdr
          if !integrityCheck h.consumer hd.dataPtr hd.dataSize then
            ({ s with shared := (m.setMagic 0).envBug }, .idle (some .EINVAL))
          else ({ s with shared := m }, .release hdr)
  | .lockRd r =>
    match tryLockRd s.shared with
    | (false, m) => ({ s with shared := m }, .idle (some .EBUSY))
    | (true, m) => ({ s with shared := m }, .readRdPtr r)
  | .readRdPtr r => (s, .readWrPtr r s.shared.chdr.rdPtr)
  | .readWrPtr r rdp =>
    if isEmpty rdp s.shared.phdr.wrPtr then (s, .readClosed)
    else if !integrityCheck h.consumer rdp traceEventHdrSize then
      ({ s with shared := s.shared.envBug }, .readClosed)
    else (s, .readReady r rdp)
  | .readReady r rdp =>
    let m := s.shared.touch h.consumer rdp traceEventHdrSize
    if !(readHdr m.ring rdp).ready then ({ s with shared := m }, .readClosed)
    else ({ s with shared := m }, .take r rdp)
  | .readClosed => (s, .unlockRd (some (noEvent s.shared)))
  | .take r hdr =>
    let m := s.shared
    let hd := readHdr m.ring hdr
    match r with
    | .pop buffer =>
      if buffer.length < hd.dataSize then (s, .unlockRd (some .ENOSPC))
      else if !integrityCheck h.consumer hd.dataPtr hd.dataSize then
        ({ s with shared := m.envBug }, .unlockRd (some .EINVAL))
      else
        let m := (m.touch h.consumer hd.dataPtr hd.dataSize).noteCopy buffer.length
        let event := h.lib.memcpyS buffer (m.ring.load hd.dataPtr hd.dataSize)
        ({ s with shared := m }, .moveRdPtr hdr (hd.dataSize, event.take hd.dataSize))
    | .getRdBuffer =>
      if !integrityCheck h.consumer hd.dataPtr hd.dataSize then
        ({ s with shared := m.envBug }, .unlockRd (some .EINVAL))
      else
        -- the lock stays taken, and the caller reads the buffer in place
        ({ s with
          shared := m.touch h.consumer hd.dataPtr hd.dataSize
          given := s.given ++ [(hd.dataSize, m.ring.load hd.dataPtr hd.dataSize)]
          held := some hdr }, .idle none)
  | .moveRdPtr hdr event =>
    ({ s with
      shared := Trace.moveRdPtr h.consumer hdr s.shared
      given := s.given ++ [event] }, .unlockRd none)
  | .unlockRd answer => ({ s with shared := s.shared.setRdLock 0 }, .idle answer)
  | .release hdr =>
    ({ s with shared := Trace.moveRdPtr h.consumer hdr s.shared, held := none }, .unlockRd none)

/-- Both sides and where they are. -/
structure State where
  session : Session
  producer : ProducerPc
  consumer : ConsumerPc

inductive Turn where
  | producer (call : ProducerCall)
  | consumer (call : ConsumerCall)

def State.step (h : Handles) (turn : Turn) (x : State) : State :=
  match turn with
  | .producer call =>
    let y := producerStep h call x.session x.producer
    { x with session := y.1, producer := y.2 }
  | .consumer call =>
    let y := consumerStep h call x.session x.consumer
    { x with session := y.1, consumer := y.2 }

/-- An opened session with both sides between calls. -/
def State.start (s : Session) : State := ⟨s, .idle, .idle none⟩

/-- The arguments a turn's call can be made with: sizes are 32-bit. -/
def Turn.Fits : Turn → Prop
  | .producer (.request r) => r.size < 2 ^ 32
  | .consumer (.read (.pop buffer)) => buffer.length < 2 ^ 32
  | _ => True

/-- Nothing is left for the consumer: the trace is closed, and every committed event was
handed over, with its bytes unless the library has refused a copy. -/
structure NothingLeft (s : Session) : Prop where
  closed : s.shared.phdr.closed ≠ 0
  pending : ∀ e ∈ s.pending, e.committed = false
  given : Handed s.shared.refused s.given (s.accepted.filter Event.committed)

/-- `-EBADF` is returned only when nothing is left. -/
def EndOfTraceSound (x : State) : Prop :=
  x.consumer = .idle (some .EBADF) → NothingLeft x.session

/-- A pending event that is not committed has no committed one behind it. -/
def CommitsInOrder (pending : List Event) : Prop :=
  pending.Pairwise fun e f => e.committed = false → f.committed = false

instance (pending : List Event) : Decidable (CommitsInOrder pending) :=
  inferInstanceAs (Decidable (pending.Pairwise _))

/-- The consumer has found no event and has yet to look at the closed flag. -/
def ConsumerPc.foundNothing : ConsumerPc → Bool
  | .readClosed => true
  | _ => false

def ProducerPc.closing : ProducerPc → Bool
  | .setClosed => true
  | _ => false

/-- The producer sets the closed flag only with no committed event behind an uncommitted
one, and not between a consumer's finding no event and its look at the flag while a
committed event is in the ring. -/
def ClosesInOrder (turn : Turn) (x : State) : Prop :=
  match turn with
  | .producer _ => x.producer.closing = true → CommitsInOrder x.session.pending ∧
      (x.consumer.foundNothing = true → ∀ e ∈ x.session.pending, e.committed = false)
  | .consumer _ => True

instance (turn : Turn) (x : State) : Decidable (ClosesInOrder turn x) :=
  match turn with
  | .producer _ => inferInstanceAs (Decidable (_ → _ ∧ (_ → _)))
  | .consumer _ => .isTrue trivial

end Octf.Trace
