import Octf.Trace.RingBuffer
import Octf.Foundation.Run

/-! A producer and a consumer on one ring, calling whole operations in any order. The
session keeps, beside the shared memory, what the two callers see: the handles and
buffers the producer got, the bytes it stored there, and the events the consumer was
given. -/
namespace Octf.Trace
open Foundation

/-- Where an event lies: its header, its payload and the payload's size. -/
structure Place where
  hdr : ℕ
  ptr : ℕ
  size : ℕ
  deriving DecidableEq

/-- An event the ring has accepted, with what the producer has stored in it so far. -/
structure Event extends Place where
  bytes : List UInt8
  committed : Bool
  deriving DecidableEq

def Event.content (e : Event) : ℕ × List UInt8 := (e.size, e.bytes)

/-- The two handles of an opened ring, and the library they were built with. -/
structure Handles where
  lib : SafeString
  producer : OctfTrace
  consumer : OctfTrace

structure Session where
  shared : Shared
  /-- accepted events in allocation order -/
  accepted : List Event
  /-- sizes and bytes handed to the consumer, first to last -/
  given : List (ℕ × List UInt8)
  /-- the handle of a read buffer that was not released yet -/
  held : Option ℕ

/-- The calls of the two sides. Reservations are named by their number among the
accepted events; `fill` is the producer writing into a buffer it reserved. -/
inductive Op where
  | push (event : List UInt8)
  | getWrBuffer (size : ℕ)
  | fill (i off : ℕ) (bytes : List UInt8)
  | commitWrBuffer (i : ℕ)
  | pop (buffer : List UInt8)
  | getRdBuffer
  | releaseRdBuffer

namespace Session

variable (h : Handles)

def push (event : List UInt8) (s : Session) : Session :=
  match octfTracePush h.lib h.producer event s.shared with
  | (.ok _, m) =>
    let hdr := s.shared.phdr.wrPtr
    { s with
      shared := m
      accepted := s.accepted ++ [⟨⟨hdr, (readHdr m.ring hdr).dataPtr, event.length⟩, event, true⟩] }
  | (.error _, m) => { s with shared := m }

def getWrBuffer (size : ℕ) (s : Session) : Session :=
  match octfTraceGetWrBuffer h.producer size s.shared with
  | (.ok (hdr, ptr), m) =>
    { s with
      shared := m
      accepted := s.accepted ++ [⟨⟨hdr, ptr, size⟩, m.ring.load ptr size, false⟩] }
  | (.error _, m) => { s with shared := m }

def fill (i off : ℕ) (bytes : List UInt8) (s : Session) : Session :=
  match s.accepted[i]? with
  | some e =>
    if e.committed = false ∧ off + bytes.length ≤ e.size then
      let m := s.shared.touch h.producer (e.ptr + off) bytes.length
      { s with
        shared := { m with ring := m.ring.store (e.ptr + off) bytes }
        accepted := s.accepted.set i { e with bytes := overwrite e.bytes off bytes } }
    else s
  | none => s

def commitWrBuffer (i : ℕ) (s : Session) : Session :=
  match s.accepted[i]? with
  | some e =>
    if e.committed = false then
      match octfTraceCommitWrBuffer h.producer e.hdr s.shared with
      | (.ok _, m) =>
        { s with shared := m, accepted := s.accepted.set i { e with committed := true } }
      | (.error _, m) => { s with shared := m }
    else s
  | none => s

def pop (buffer : List UInt8) (s : Session) : Session :=
  match octfTracePop h.lib h.consumer buffer s.shared with
  | (.ok (event, size), m) =>
    { s with shared := m, given := s.given ++ [(size, event.take size)] }
  | (.error _, m) => { s with shared := m }

def getRdBuffer (s : Session) : Session :=
  match octfTraceGetRdBuffer h.consumer s.shared with
  | (.ok (hdr, ptr, size), m) =>
    { s with
      shared := m.touch h.consumer ptr size
      given := s.given ++ [(size, m.ring.load ptr size)]
      held := some hdr }
  | (.error _, m) => { s with shared := m }

def releaseRdBuffer (s : Session) : Session :=
  match s.held with
  | some hdr =>
    match octfTraceReleaseRdBuffer h.consumer hdr s.shared with
    | (.ok _, m) => { s with shared := m, held := none }
    | (.error _, m) => { s with shared := m }
  | none => s

/-- One whole operation. -/
def step (op : Op) (s : Session) : Session :=
  match op with
  | .push event => s.push h event
  | .getWrBuffer size => s.getWrBuffer h size
  | .fill i off bytes => s.fill h i off bytes
  | .commitWrBuffer i => s.commitWrBuffer h i
  | .pop buffer => s.pop h buffer
  | .getRdBuffer => s.getRdBuffer h
  | .releaseRdBuffer => s.releaseRdBuffer h

end Session

/-- Open the producer on a pool with any contents, then the consumer on the same pool. -/
def openSession (lib : SafeString) (heap : Bool) (mempoolSize : ℕ) (hdr : Bool) (m : Shared) :
    Except Errno (Handles × Session) :=
  -- observation of the flags starts here
  match octfTraceOpen lib heap mempoolSize hdr .producer
      { m with bug := false, outside := false, refused := false } with
  | (.error e, _) => .error e
  | (.ok producer, m) =>
    match octfTraceOpen lib heap mempoolSize hdr .consumer m with
    | (.error e, _) => .error e
    | (.ok consumer, m) => .ok (⟨lib, producer, consumer⟩, ⟨m, [], [], none⟩)

/-- The producer's open leaves empty headers: the library clears the pool, or the headers in it
were empty before. -/
def OpensEmpty (mempoolSize : ℕ) (hdr : Bool) (m : Shared) : Prop :=
  mempoolSize ≤ rsizeMaxMem ∨ m.phdr = 0 ∧ (hdr = true ∨ m.chdr = 0)

/-- The arguments an operation can be called with: events and buffers have 32-bit
sizes. -/
def Op.Fits : Op → Prop
  | .push event => event.length < 2 ^ 32
  | .getWrBuffer size => size < 2 ^ 32
  | .pop buffer => buffer.length < 2 ^ 32
  | _ => True

/-- Its event, if any, has a size whose aligned value fits the 32-bit variable it is
kept in. -/
def Op.SmallEvent : Op → Prop
  | .push event => event.length ≤ 2 ^ 32 - 16
  | .getWrBuffer size => size ≤ 2 ^ 32 - 16
  | .pop buffer => buffer.length < 2 ^ 32
  | _ => True

/-- Its event, if any, has between `1` and `2 ^ 32 - 16` bytes. -/
def Op.EventInRange : Op → Prop
  | .push event => 1 ≤ event.length ∧ event.length ≤ 2 ^ 32 - 16
  | .getWrBuffer size => 1 ≤ size ∧ size ≤ 2 ^ 32 - 16
  | .pop buffer => buffer.length < 2 ^ 32
  | _ => True

/-- What the operation copies, if anything, is copied to a destination within the bound of the
library. -/
def Op.WithinBound : Op → Prop
  | .push event => event.length ≤ rsizeMaxMem
  | .pop buffer => buffer.length ≤ rsizeMaxMem
  | _ => True

/-- The event the consumer is given next. -/
def Session.next (s : Session) : Option Event := s.accepted[s.given.length]?

/-- The operation finds something to copy: room for the event of a push, or a committed event
that the buffer of a pop can hold. -/
def Op.Copies (h : Handles) (s : Session) : Op → Prop
  | .push event => (findSpace h.producer event.length s.shared.chdr.rdPtr s.shared.phdr.wrPtr
      s.shared).1.isSome = true
  | .pop buffer => s.held = none ∧
      ∃ e, s.next = some e ∧ e.committed = true ∧ e.size ≤ buffer.length
  | _ => False

/-- What the operation copies in this state, if anything, is within the bound of the library. -/
def CopiesWithin (h : Handles) (op : Op) (s : Session) : Prop := op.Copies h s → op.WithinBound

theorem Op.EventInRange.smallEvent {op : Op} (h : op.EventInRange) : op.SmallEvent := by
  cases op with
  | push _ => exact h.2
  | getWrBuffer _ => exact h.2
  | pop _ => exact h
  | _ => trivial

end Octf.Trace
