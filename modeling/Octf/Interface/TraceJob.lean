import Octf.Foundation.RecordRing
import Octf.Foundation.Run
import Octf.Foundation.Word
import Octf.Trace.RingBuffer
import Mathlib.Logic.Function.Basic

/-! A trace job over a local producer: threads push traces and stop the job, while its own
thread waits, empties the ring and waits again. A turn is one critical section, one atomic
access of the ring or one notification. The ring is kept as the list of its events. -/
namespace Octf.Interface
open Foundation Foundation.RecordRing Trace

inductive TracingState where
  | undefined | notStarted | initializing | running | complete | error
  deriving DecidableEq

/-- An event between the two pointers of the ring, at the position of its header. -/
structure RingEvent where
  pos : ℕ
  size : ℕ
  ready : Bool
  deriving DecidableEq

/-- What a thread does next in `pushTrace` or `stop`. -/
inductive ProducerPc where
  /-- in no call; what the last one returned -/
  | returned (result : Except Errno Unit)
  /-- `stop = m_stop` under the mutex, and the tests that follow -/
  | readStop (traceSize : ℕ)
  /-- `_is_trace_valid` of `octf_trace_push` -/
  | checkValid (size : ℕ)
  /-- `_try_lock_wr`, with the attempts that are left -/
  | tryLockWr (size retry : ℕ)
  /-- `_allocate_event` reads the two pointers -/
  | findSpace (size : ℕ)
  /-- `_allocate_event` prepares the header and moves the write pointer -/
  | moveWrPtr (size : ℕ)
  /-- `_unlock_wr`; the event is at `pos` unless there was no space -/
  | unlockWr (size : ℕ) (pos : Option ℕ)
  /-- `env_atomic64_inc(&trace->phdr->lost)` -/
  | incLost
  | integrityCheck (size pos : ℕ)
  /-- copy the data, `hdr->ready = true` -/
  | commit (pos : ℕ)
  /-- `m_ringTriggerSize > octf_trace_get_free_space` -/
  | checkTrigger
  /-- `m_checkTrigger.notify_all()` -/
  | notify
  /-- `m_stop = true` under the mutex -/
  | setStop
  /-- `m_checkTrigger.notify_all()` of `stop` -/
  | notifyStop
  deriving DecidableEq

/-- What the job's thread does next in `consumeTraces`. -/
inductive ConsumerPc where
  /-- `m_producer->wait`: take the mutex, release it and block -/
  | wait
  | blocked
  /-- notified, `return !m_stop` under the mutex -/
  | woken
  | isEmpty
  | getRdBuffer
  | serialize
  | releaseRdBuffer
  | ended (endState : TracingState)
  deriving DecidableEq

/-- The job, its producer and the ring between them. -/
structure TraceJob (T : Type) where
  stop : Bool
  /-- the magic of the ring is intact -/
  valid : Bool
  wrLock : Bool
  lost : ℤ
  events : List RingEvent
  /-- positions of the two pointers, as if the ring did not wrap -/
  rdPos : ℕ
  wrPos : ℕ
  traceCount : ℤ
  finish : Bool
  producers : T → ProducerPc
  consumer : ConsumerPc
  /-- some call of `stop` has returned -/
  stopped : Bool
  /-- calls of `pushTrace` with a size other than zero -/
  calls : ℕ

inductive JobAction (T : Type) where
  | pushTrace (thread : T) (traceSize : Fin (2 ^ 32))
  | stop (thread : T)
  /-- a thread in a call goes on -/
  | thread (thread : T)
  /-- the job's thread goes on; the converter and the serializer succeed or not -/
  | consumer (serialized : Bool)
  /-- `wait_until` reaches its end time -/
  | timeOut
  /-- the wait is interrupted without a notification -/
  | spurious

/-- `ring_size` of a pool without an external consumer header. -/
def ringSize (memoryPoolSize : ℕ) : ℕ :=
  (memoryPoolSize - producerHdrSize - consumerHdrSize) / traceAlignment * traceAlignment

def ringTriggerSize (memoryPoolSize : ℕ) : ℕ := memoryPoolSize * 75 / 100

/-- `trace->ring_size` and the threshold of the handle. -/
def traceHandle (memoryPoolSize : ℕ) : OctfTrace :=
  ⟨.producer, ringSize memoryPoolSize, ringSize memoryPoolSize * 2 / 10⟩

/-- `-EINVAL` -/
def negEinval : ℤ := -22

namespace TraceJob

variable {T : Type} [DecidableEq T] (memoryPoolSize : ℕ)

def init : TraceJob T where
  stop := false
  valid := true
  wrLock := false
  lost := 0
  events := []
  rdPos := 0
  wrPos := 0
  traceCount := 0
  finish := false
  producers _ := .returned (.ok ())
  consumer := .wait
  stopped := false
  calls := 0

def goTo (thread : T) (pc : ProducerPc) (s : TraceJob T) : TraceJob T :=
  { s with producers := Function.update s.producers thread pc }

/-- The call of a thread returns. -/
def ret (thread : T) (result : Except Errno Unit) (s : TraceJob T) : TraceJob T :=
  s.goTo thread (.returned result)

/-- Where an event written at the write pointer would end. -/
def nextWrPos (size : ℕ) (s : TraceJob T) : ℕ :=
  nextPos (ringSize memoryPoolSize) traceEventHdrSize s.wrPos (traceAlign size % 2 ^ 32)

/-- The ring has room for the event. -/
def fits (size : ℕ) (s : TraceJob T) : Bool :=
  s.nextWrPos memoryPoolSize size < s.rdPos + ringSize memoryPoolSize

/-- `_integrity_check` of the data of an event at `pos`. -/
def intact (size pos : ℕ) : Bool :=
  Trace.integrityCheck (traceHandle memoryPoolSize)
    (payloadPos (ringSize memoryPoolSize) traceEventHdrSize pos (traceAlign size % 2 ^ 32) %
      ringSize memoryPoolSize) size

def freeSpace (s : TraceJob T) : ℕ :=
  getFreeSpace (traceHandle memoryPoolSize) (s.rdPos % ringSize memoryPoolSize)
    (s.wrPos % ringSize memoryPoolSize)

/-- The new event is behind all others. -/
def append (size : ℕ) (s : TraceJob T) : TraceJob T :=
  { s with
    events := s.events ++ [⟨s.wrPos, size, false⟩]
    wrPos := s.nextWrPos memoryPoolSize size }

def setReady (pos : ℕ) (s : TraceJob T) : TraceJob T :=
  { s with events := s.events.map fun e => if e.pos = pos then { e with ready := true } else e }

/-- `notify_all` -/
def notifyAll (s : TraceJob T) : TraceJob T :=
  { s with consumer := if s.consumer = .blocked then .woken else s.consumer }

/-- A thread goes on in its call. -/
def turn (thread : T) (s : TraceJob T) : TraceJob T :=
  match s.producers thread with
  | .returned _ => s
  | .readStop traceSize =>
    if s.stop then s.ret thread (.error .ENOSPC)
    else if memoryPoolSize < traceSize then s.ret thread (.error .ENOSPC)
    else if 0 < traceSize then s.goTo thread (.checkValid traceSize)
    else s.ret thread (.ok ())
  | .checkValid size =>
    if s.valid then s.goTo thread (.tryLockWr size 129) else s.ret thread (.error .EINVAL)
  | .tryLockWr size retry =>
    match retry with
    | 0 => s.goTo thread .incLost
    | retry + 1 =>
      if s.wrLock then s.goTo thread (.tryLockWr size retry)
      else ({ s with wrLock := true } : TraceJob T).goTo thread (.findSpace size)
  | .findSpace size =>
    if s.fits memoryPoolSize size then s.goTo thread (.moveWrPtr size)
    else s.goTo thread (.unlockWr size none)
  | .moveWrPtr size =>
    (s.append memoryPoolSize size).goTo thread (.unlockWr size (some s.wrPos))
  | .unlockWr size pos =>
    let pc := match pos with
      | none => .incLost
      | some pos => .integrityCheck size pos
    ({ s with wrLock := false } : TraceJob T).goTo thread pc
  | .incLost => ({ s with lost := incInt64 s.lost } : TraceJob T).ret thread (.error .ENOSPC)
  | .integrityCheck size pos =>
    if intact memoryPoolSize size pos then s.goTo thread (.commit pos)
    else ({ s with valid := false } : TraceJob T).ret thread (.error .EINVAL)
  | .commit pos => (s.setReady pos).goTo thread .checkTrigger
  | .checkTrigger =>
    -- the free space of an invalid trace is the negative `-EINVAL`
    if s.valid ∧ ringTriggerSize memoryPoolSize ≤ s.freeSpace memoryPoolSize then
      s.ret thread (.ok ())
    else s.goTo thread .notify
  | .notify => s.notifyAll.ret thread (.ok ())
  | .setStop => ({ s with stop := true } : TraceJob T).goTo thread .notifyStop
  | .notifyStop => ({ s.notifyAll with stopped := true } : TraceJob T).ret thread (.ok ())

/-- `while (!finish)` -/
def loopEnd (s : TraceJob T) : TraceJob T :=
  { s with consumer := if s.finish then .ended .complete else .wait }

/-- The event at the read pointer can be read. -/
def HeadReady (s : TraceJob T) : Prop := ∃ e ∈ s.events.head?, e.ready = true

instance (s : TraceJob T) : Decidable s.HeadReady :=
  inferInstanceAs (Decidable (∃ e ∈ s.events.head?, e.ready = true))

/-- Behind the event at the read pointer, `_move_rd_ptr`. -/
def release (s : TraceJob T) : TraceJob T :=
  { s with
    rdPos := match s.events with
      | [] => s.rdPos
      | e :: _ => nextPos (ringSize memoryPoolSize) traceEventHdrSize s.rdPos (traceAlign e.size)
    events := s.events.tail }

/-- The job's thread goes on in `consumeTraces`. -/
def consume (serialized : Bool) (s : TraceJob T) : TraceJob T :=
  match s.consumer with
  | .wait => { s with consumer := .blocked }
  | .blocked => s
  | .woken => { s with finish := s.finish || s.stop, consumer := .isEmpty }
  | .isEmpty =>
    -- an invalid trace answers `-EINVAL`, which is not zero
    if s.valid ∧ s.events ≠ [] then { s with consumer := .getRdBuffer } else s.loopEnd
  | .getRdBuffer =>
    if !s.valid then { s with consumer := .ended .error }
    else if s.HeadReady then { s with consumer := .serialize }
    else s.loopEnd
  | .serialize =>
    if serialized then
      { s with traceCount := incInt64 s.traceCount, consumer := .releaseRdBuffer }
    else { s with consumer := .ended .error }
  | .releaseRdBuffer =>
    if s.valid then { s.release memoryPoolSize with consumer := .isEmpty }
    else { s with consumer := .ended .error }
  | .ended _ => s

/-- The thread is in no call. -/
def Idle (thread : T) (s : TraceJob T) : Prop := ∃ result, s.producers thread = .returned result

instance (thread : T) (s : TraceJob T) : Decidable (s.Idle thread) :=
  match h : s.producers thread with
  | .returned result => .isTrue ⟨result, h⟩
  | .readStop _ | .checkValid _ | .tryLockWr _ _ | .findSpace _ | .moveWrPtr _ | .unlockWr _ _
  | .incLost | .integrityCheck _ _ | .commit _ | .checkTrigger | .notify | .setStop
  | .notifyStop => .isFalse fun ⟨_, hr⟩ => by rw [h] at hr; cases hr

/-- `pushTrace` begins. -/
def call (thread : T) (traceSize : Fin (2 ^ 32)) (s : TraceJob T) : TraceJob T :=
  ({ s with calls := if traceSize = 0 then s.calls else s.calls + 1 } : TraceJob T).goTo thread
    (.readStop traceSize)

/-- A call begins when its thread is in no other. -/
def step (action : JobAction T) (s : TraceJob T) : TraceJob T :=
  match action with
  | .pushTrace thread traceSize => if s.Idle thread then s.call thread traceSize else s
  | .stop thread => if s.Idle thread then s.goTo thread .setStop else s
  | .thread thread => s.turn memoryPoolSize thread
  | .consumer serialized => s.consume memoryPoolSize serialized
  | .timeOut =>
    if s.consumer = .blocked ∨ s.consumer = .woken then
      { s with finish := true, consumer := .isEmpty }
    else s
  | .spurious => if s.consumer = .blocked then { s with consumer := .woken } else s

/-- `TraceJob::getTraceCount` -/
def getTraceCount (s : TraceJob T) : ℤ := s.traceCount

/-- `TraceJob::getDroppedTraceCount` -/
def getDroppedTraceCount (s : TraceJob T) : ℤ := if s.valid then s.lost else negEinval

end TraceJob

end Octf.Interface
