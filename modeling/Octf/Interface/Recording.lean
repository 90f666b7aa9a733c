import Octf.Interface.ConversionPurity
import Octf.Interface.TraceJob
import Octf.Storage.RoundTrip
import Octf.Trace.Runs

/-! A trace job from the ring to its file: what is pushed into the ring is read in place, converted
and serialized, while further events are pushed. -/
namespace Octf.Interface
open Foundation Octf.Parser Octf.Storage

/-! ### The message of an event -/

/-- An event in a buffer of its own. -/
def RawEvent.ofBytes (event : List UInt8) : RawEvent :=
  ⟨fun i => event.getD i 0, event.length, event.length⟩

/-- The message that a fresh converter makes of an event. -/
def messageOf (event : List UInt8) : Option Event :=
  (TraceConverter.new.convertTrace (.ofBytes event)).1.message.join

/-- `hdr->sid` -/
def sidOf (event : List UInt8) : ℕ := u64 (RawEvent.ofBytes event).memory 0

/-- Its names are terminated, and a file event is of one of the four types. -/
structure WellFormed (event : List UInt8) : Prop where
  names : ∀ kind, (RawEvent.ofBytes event).kind = some kind →
    NamesTerminated (RawEvent.ofBytes event).memory kind
  known : (RawEvent.ofBytes event).kind = some .fsFileEvent →
    fsEventType (RawEvent.ofBytes event).memory < 4

/-- An event that lies in a larger memory. -/
structure RawEvent.Shows (raw : RawEvent) (event : List UInt8) : Prop where
  size : raw.size = event.length
  extent : raw.size ≤ raw.extent
  bytes : raw.memory.load 0 raw.size = event

theorem RawEvent.Shows.agree {raw : RawEvent} {event : List UInt8} (h : raw.Shows event) :
    Agree event.length (ofBytes event).memory raw.memory := by
  intro i hi
  have hget := raw.memory.getElem?_load (p := 0) (h.size ▸ hi)
  rw [h.bytes, Nat.zero_add] at hget
  simp only [ofBytes, List.getD_eq_getElem?_getD, hget, Option.getD_some]

/-- Wherever an event lies, and whatever was converted before, its message is the same. -/
theorem message_eq (history : List RawEvent) {raw : RawEvent} {event : List UInt8}
    (h : raw.Shows event) (hwell : WellFormed event) :
    ((after history).convertTrace raw).1.message.join = messageOf event := by
  have hkind : raw.kind = (RawEvent.ofBytes event).kind := kind_of_agree h.size h.agree
  have hfresh : ((after history).convertTrace (.ofBytes event)).1.message =
      (TraceConverter.new.convertTrace (.ofBytes event)).1.message :=
    (fresh_iff history _).mpr fun hevent hge => absurd (hwell.known hevent) (not_lt.mpr hge)
  rw [messageOf, ← hfresh, TraceConverter.convertTrace_eq, TraceConverter.convertTrace_eq, hkind]
  rcases hcase : (RawEvent.ofBytes event).kind with _ | kind
  · rfl
  · have hsize : event.length = kind.size := RawEvent.size_of_kind hcase
    have hextent : kind.size ≤ raw.extent := by
      rw [← hsize, ← h.size]
      exact h.extent
    simp only [Option.map_some, Option.getD_some]
    rw [convertKind_of_agree (after history) (hsize ▸ h.agree) hsize.ge hextent
      (hwell.names kind hcase)]

/-- A message has the sequence id of its event. -/
theorem sid_of_messageOf {event : List UInt8} {message : Event}
    (h : messageOf event = some message) : message.header.sid = sidOf event := by
  rw [messageOf, TraceConverter.convertTrace_eq] at h
  rcases hkind : (RawEvent.ofBytes event).kind with _ | kind
  · simp [hkind, TraceConverter.nullptr] at h
  · simp only [hkind, Option.map_some, Option.getD_some] at h
    cases kind with
    | deviceDesc =>
      simp only [TraceConverter.convertKind, TraceConverter.convertDesc] at h
      generalize (RawEvent.ofBytes event).readName 40 256 = name,
        (RawEvent.ofBytes event).readName 296 256 = model at h
      obtain ⟨_ | name, nameRead⟩ := name
      · cases h
      · obtain ⟨_ | model, modelRead⟩ := model <;> cases h
        rfl
    | io =>
      simp only [TraceConverter.convertKind, TraceConverter.convertIo] at h
      cases hop : TraceConverter.operation (RawEvent.ofBytes event).memory with
      | none =>
        rw [hop] at h
        cases h
      | some operation =>
        rw [hop] at h
        cases h
        rfl
    | fsFileName =>
      simp only [TraceConverter.convertKind, TraceConverter.convertFsFileName] at h
      generalize (RawEvent.ofBytes event).readName 80 64 = name at h
      obtain ⟨_ | name, nameRead⟩ := name <;> cases h
      rfl
    | ioCmpl | fsMeta | fsFileEvent =>
      cases h
      rfl

/-! ### The job -/

/-- What the job's thread does next in `consumeTraces`. -/
inductive Reader where
  | wait
  | isEmpty
  | getRdBuffer
  | serialize (traceBuffer traceSize : ℕ)
  | releaseRdBuffer
  | ended (endState : TracingState)
  deriving DecidableEq

/-- A trace job with its ring and its file. -/
structure Recording where
  ring : Trace.Session
  finish : Bool
  reader : Reader
  converter : TraceConverter
  serializer : FileTraceSerializer
  traceCount : ℤ

namespace Recording

/-- A job whose ring and file are open. -/
def init (ring : Trace.Session) (serializer : FileTraceSerializer) : Recording :=
  ⟨ring, false, .wait, .new, serializer, 0⟩

inductive Action where
  /-- A producer goes on: it pushes an event, or takes one of the steps of a push. -/
  | produce (op : Trace.Op)
  /-- The job's thread goes on. A wait that ends is the last one after `stop` or a time-out. -/
  | consume (last : Bool)

/-- What a producer does, with an event that is not empty and that can be copied. -/
def Action.Fits : Action → Prop
  | .produce (.pop _) | .produce .getRdBuffer | .produce .releaseRdBuffer => False
  | .produce op => op.EventInRange ∧ op.WithinBound
  | .consume _ => True

variable (h : Trace.Handles) (encode : Event → List UInt8) (ops : FileOps)

/-- `while (!finish)` -/
def loopEnd (q : Recording) : Recording :=
  { q with reader := if q.finish then .ended .complete else .wait }

/-- The event in the ring that is converted in place. -/
def rawEvent (traceBuffer traceSize : ℕ) (q : Recording) : RawEvent :=
  ⟨fun i => q.ring.shared.ring (traceBuffer + i), h.consumer.ringSize - traceBuffer, traceSize⟩

/-- `TraceJob::serialize`. There is no message for an event that cannot be converted, and here
also none when a name is read past the memory. -/
def serialize (traceBuffer traceSize : ℕ) (q : Recording) : Recording :=
  let (conversion, converter) := q.converter.convertTrace (q.rawEvent h traceBuffer traceSize)
  match conversion.message.join with
  | none => { q with converter := converter, reader := .ended .error }
  | some message =>
    match q.serializer.serialize encode ops message with
    | (.ok true, serializer) =>
      { q with
        converter := converter
        serializer := serializer
        traceCount := incInt64 q.traceCount
        reader := .releaseRdBuffer }
    | (_, serializer) =>
      { q with converter := converter, serializer := serializer, reader := .ended .error }

/-- The job's thread goes on in `consumeTraces`. -/
def consume (last : Bool) (q : Recording) : Recording :=
  match q.reader with
  | .wait => { q with finish := q.finish || last, reader := .isEmpty }
  | .isEmpty =>
    match Trace.octfTraceIsEmpty q.ring.shared with
    | .ok false => { q with reader := .getRdBuffer }
    -- an error is not zero
    | _ => q.loopEnd
  | .getRdBuffer =>
    match Trace.octfTraceGetRdBuffer h.consumer q.ring.shared with
    | (.ok (_, traceBuffer, traceSize), _) =>
      { q with ring := q.ring.getRdBuffer h, reader := .serialize traceBuffer traceSize }
    | (.error .EAGAIN, _) | (.error .EBUSY, _) =>
      ({ q with ring := q.ring.getRdBuffer h } : Recording).loopEnd
    | (.error _, _) => { q with ring := q.ring.getRdBuffer h, reader := .ended .error }
  | .serialize traceBuffer traceSize => q.serialize h encode ops traceBuffer traceSize
  | .releaseRdBuffer =>
    let ring := q.ring.releaseRdBuffer h
    { q with ring := ring, reader := if ring.held = none then .isEmpty else .ended .error }
  | .ended _ => q

def step (action : Action) (q : Recording) : Recording :=
  match action with
  | .produce op => { q with ring := q.ring.step h op }
  | .consume last => q.consume h encode ops last

/-! ### What the job's thread holds -/

/-- The ring as the job's thread left it. -/
def Reads (q : Recording) : Prop :=
  match q.reader with
  | .serialize traceBuffer traceSize => q.ring.held ≠ none ∧
    ∃ e, q.ring.accepted[q.ring.given.length - 1]? = some e ∧ e.ptr = traceBuffer ∧
      e.size = traceSize
  | .releaseRdBuffer => q.ring.held ≠ none
  | .ended .error => True
  | _ => q.ring.held = none

/-- A producer moves no event, takes none back and leaves the ring open. -/
structure Keeps (s s' : Trace.Session) : Prop where
  given : s'.given = s.given
  held : s'.held = s.held
  closed : s'.shared.phdr.closed = s.shared.phdr.closed
  placed : ∀ (i : ℕ) (e : Trace.Event), s.accepted[i]? = some e →
    ∃ e' : Trace.Event, s'.accepted[i]? = some e' ∧ e'.toPlace = e.toPlace

namespace Keeps

variable {s : Trace.Session} {m : Trace.Shared}

theorem of_shared (hclosed : m.phdr.closed = s.shared.phdr.closed) :
    Keeps s { s with shared := m } := ⟨rfl, rfl, hclosed, fun _ e he => ⟨e, he, rfl⟩⟩

theorem append (hclosed : m.phdr.closed = s.shared.phdr.closed) (event : Trace.Event) :
    Keeps s { s with shared := m, accepted := s.accepted ++ [event] } where
  given := rfl
  held := rfl
  closed := hclosed
  placed := fun i e he => ⟨e, by
    rw [List.getElem?_append_left (List.getElem?_eq_some_iff.mp he).1]
    exact he, rfl⟩

theorem set (hclosed : m.phdr.closed = s.shared.phdr.closed) {i : ℕ} {e e' : Trace.Event}
    (he : s.accepted[i]? = some e) (hplace : e'.toPlace = e.toPlace) :
    Keeps s { s with shared := m, accepted := s.accepted.set i e' } where
  given := rfl
  held := rfl
  closed := hclosed
  placed := by
    intro j f hf
    by_cases hij : i = j
    · subst hij
      obtain rfl : e = f := Option.some.inj (he.symm.trans hf)
      exact ⟨e', by rw [List.getElem?_set_self (List.getElem?_eq_some_iff.mp he).1], hplace⟩
    · exact ⟨f, by rw [List.getElem?_set_ne hij]; exact hf, rfl⟩

end Keeps

variable {h : Trace.Handles} {encode : Event → List UInt8} {ops : FileOps} {N R : ℕ}
  {s : Trace.Session} {done pending : List Trace.Event} {q : Recording}

theorem keeps_produce (ho : h.Opened N) (hi : Trace.Inv N s R done pending) {op : Trace.Op}
    (hop : (Action.produce op).Fits) : Keeps s (s.step h op) := by
  cases op with
  | pop _ | getRdBuffer | releaseRdBuffer => exact hop.elim
  | push event =>
    simp only [Trace.Session.step, hi.push_eq ho hop.1.2]
    split_ifs
    · refine Keeps.append ?_ _
      rfl
    · exact .of_shared rfl
  | getWrBuffer size =>
    simp only [Trace.Session.step, Trace.Session.getWrBuffer, hi.octfTraceGetWrBuffer_eq ho hop.1.2]
    by_cases hfit : Trace.Accepts N R (Trace.Inv.W N R pending) size
    · simp only [if_pos hfit]
      refine Keeps.append ?_ _
      rfl
    · simp only [if_neg hfit]
      exact .of_shared rfl
  | fill i off bytes =>
    simp only [Trace.Session.step, Trace.Session.fill]
    cases he : s.accepted[i]? with
    | none => exact .of_shared rfl
    | some e =>
      simp only
      split_ifs
      · refine Keeps.set ?_ he ?_ <;> rfl
      · exact .of_shared rfl
  | commitWrBuffer i =>
    simp only [Trace.Session.step, Trace.Session.commitWrBuffer]
    cases he : s.accepted[i]? with
    | none => exact .of_shared rfl
    | some e =>
      simp only
      split_ifs with hc
      · obtain ⟨j, -, hj⟩ := hi.uncommitted_index he hc
        rw [hi.octfTraceCommitWrBuffer_eq ho (List.mem_of_getElem? hj)]
        refine Keeps.set ?_ he ?_ <;> rfl
      · exact .of_shared rfl

end Recording

end Octf.Interface
