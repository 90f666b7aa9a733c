import Octf.Interface.RecordingRuns
import Octf.Parser.Delivery

/-! A trace from its producers to the parser: what the rings of its queues accepted and their jobs
wrote is what the parser of its files delivers. -/
namespace Octf.Interface
open Foundation Octf.Parser Octf.Storage Recording

/-- A queue of a trace, from the opening of its ring to the end of its job. -/
structure RecordedQueue where
  lib : Trace.SafeString
  lawful : lib.Lawful
  memoryPoolSize : ℕ
  poolSize : memoryPoolSize < 2 ^ 32
  pool : Trace.Shared
  empty : Trace.OpensEmpty memoryPoolSize false pool
  handles : Trace.Handles
  session : Trace.Session
  opened : Trace.openSession lib true memoryPoolSize false pool = .ok (handles, session)
  ops : FileOps
  outputFileName : String
  pageSize : ℕ
  page : 0 < pageSize ∧ pageSize < 2 ^ 64
  oldFile : File
  schedule : List Action
  fits : ∀ action ∈ schedule, action.Fits

namespace RecordedQueue

variable (q : RecordedQueue) (encode : Event → List UInt8)

/-- The job at the end of the schedule. -/
def final : Recording :=
  run (step q.handles encode q.ops) q.schedule
    (init q.session (FileTraceSerializer.opened q.outputFileName q.pageSize q.oldFile))

/-- `m_serializer->close()` -/
def closed : Bool × FileTraceSerializer := (q.final encode).serializer.close q.ops

/-- The bytes of the closed file. -/
def contents : List UInt8 := (q.closed encode).2.file.contents

variable {q encode}

theorem inv (hwrite : ∀ e ∈ (q.final encode).ring.given, Writable encode e.2) :
    q.handles.Opened q.handles.producer.ringSize ∧
      Recording.Inv encode q.handles.producer.ringSize (q.final encode) := by
  have hinit : q.handles.Opened q.handles.producer.ringSize ∧
      Recording.Inv encode q.handles.producer.ringSize
        (Recording.init _ (FileTraceSerializer.opened q.outputFileName _ q.oldFile)) :=
    init_inv q.lawful q.poolSize q.empty q.opened q.outputFileName q.page q.oldFile
  obtain ⟨ho, hi⟩ := hinit
  exact ⟨ho, hi.run ho q.fits hwrite⟩

/-- The file that was closed without a failure is read back. -/
theorem contents_eq (hwrite : ∀ e ∈ (q.final encode).ring.given, Writable encode e.2)
    (hok : (q.closed encode).2.failed = false) :
    (q.closed encode).1 = true ∧
      q.contents encode = frames encode (q.final encode).messages := by
  obtain ⟨-, hi⟩ := inv hwrite
  obtain ⟨hvalid, hfile, -⟩ := hi.counted (FileTraceSerializer.failed_of_close q.ops hok)
  obtain ⟨hclosed, hcontents⟩ := FileTraceSerializer.close_spec q.ops hvalid hok
  exact ⟨hclosed, hcontents.trans hfile⟩

/-- When nothing is left in the ring, every event is counted. -/
theorem counted_of_isEmpty (hwrite : ∀ e ∈ (q.final encode).ring.given, Writable encode e.2)
    (hok : (q.closed encode).2.failed = false) (halive : (q.final encode).reader ≠ .ended .error)
    (hempty : Trace.octfTraceIsEmpty (q.final encode).ring.shared = .ok true) :
    (q.final encode).counted = (q.final encode).ring.accepted := by
  obtain ⟨ho, hi⟩ := inv hwrite
  obtain ⟨-, -, hcount, -, -, hlast⟩ := hi.counted (FileTraceSerializer.failed_of_close q.ops hok)
  obtain ⟨R, done, pending, hring⟩ := hi.ring
  have hnil : pending = [] := by
    rw [Trace.octfTraceIsEmpty, hring.valid, if_pos rfl, hring.pointers.rdPtr,
      hring.pointers.wrPtr, hring.isEmpty_eq] at hempty
    simpa using hempty
  subst hnil
  have hheld : (q.final encode).ring.held = none := by
    cases hheld : (q.final encode).ring.held with
    | none => rfl
    | some hdr =>
      have hread := hring.reading
      simp [Trace.Reading, hheld] at hread
  have hunsaved : unsaved (q.final encode).reader = 0 := by
    cases hreader : (q.final encode).reader with
    | serialize buffer size =>
      have hreads : Recording.Reads _ := hi.reads
      rw [Recording.Reads, hreader] at hreads
      exact absurd hheld hreads.1
    | _ => rfl
  have hgiven := (hring.given_of_not_held hheld).length_eq
  have haccepted := congrArg List.length hring.split
  rw [List.append_nil] at haccepted
  rw [counted, hcount, Int.toNat_natCast, List.take_of_length_le]
  have hlen := hlast halive
  omega

end RecordedQueue

/-- What the reader of the closed file reads. -/
def RecordedQueue.readBack (q : RecordedQueue) (encode : Event → List UInt8)
    (parse : List UInt8 → Option Event) : List Event × Outcome :=
  TraceFileReader.readAll parse ((q.contents encode).length + 1)
    (TraceFileReader.init (q.contents encode))

/-- What is relied on in the encoding of messages, for the message of one event. -/
structure Restored (encode : Event → List UInt8) (parse : List UInt8 → Option Event)
    (event : List UInt8) : Prop where
  writable : Writable encode event
  parsed : ∀ message, messageOf event = some message → parse (encode message) = some message

/-- A completion of which only the sequence id is not zero. -/
def completion (sid : UInt8) : List UInt8 :=
  sid :: List.replicate 15 0 ++ 2 :: List.replicate 39 0

/-- The stored form of its message. -/
def encodeCompletion (message : Event) : List UInt8 :=
  [10, 2, 8, UInt8.ofNat message.header.sid, 42, 0]

def parseCompletion : List UInt8 → Option Event
  | [10, 2, 8, sid, 42, 0] => some ⟨⟨sid.toNat, 0⟩, .ioCompletion ⟨0, 0, false, 0, 0⟩⟩
  | _ => none

/-- A queue with one completion, whose job is stopped at once. -/
def oneCompletion (sid : UInt8) : RecordedQueue where
  lib := .plain
  lawful := Trace.SafeString.plain_lawful
  memoryPoolSize := Trace.octfTraceMinBufferSize
  poolSize := by decide
  pool := ⟨0, 0, 0, false, false, false⟩
  empty := .inl (by decide)
  handles := Trace.smallHandles
  session := Trace.smallSession
  opened := Trace.openSession_small
  ops := FileTraceSerializer.willing
  outputFileName := "octf.trace.0"
  pageSize := 4096
  page := by decide
  oldFile := ⟨fun _ => 255, 9⟩
  schedule := .produce (.push (completion sid)) :: List.replicate 7 (.consume true)
  fits := by
    simp [Action.Fits, Trace.Op.EventInRange, Trace.Op.WithinBound, Trace.rsizeMaxMem, completion]

theorem restored_completion : ∀ sid ∈ [(1 : UInt8), 2],
    Restored encodeCompletion parseCompletion (completion sid) := by
  have hkind : ∀ sid ∈ [(1 : UInt8), 2],
      (RawEvent.ofBytes (completion sid)).kind = some .ioCmpl := by decide +kernel
  have hparse : ∀ sid ∈ [(1 : UInt8), 2], ∀ message ∈ messageOf (completion sid),
      parseCompletion (encodeCompletion message) = some message := by decide +kernel
  intro sid hsid
  refine ⟨⟨⟨fun kind h => ?_, fun h => ?_⟩, fun message _ => ?_⟩, hparse sid hsid⟩
  · obtain rfl := Option.some.inj ((hkind sid hsid).symm.trans h)
    trivial
  · cases (hkind sid hsid).symm.trans h
  · exact (by decide : 6 < 2 ^ 31)

/-- The job fails only for an event that has no message or for its file. A file that was closed
without a failure has the messages of the counted events, which are the first that were accepted,
and all of them if the ring is empty. -/
structure RecordedQueue.Writes (q : RecordedQueue) (encode : Event → List UInt8) : Prop where
  failure : (q.final encode).reader = .ended .error → (q.final encode).serializer.failed = true ∨
    ∃ e ∈ (q.final encode).ring.given, messageOf e.2 = none
  contents : (q.closed encode).2.failed = false →
    q.contents encode = frames encode (q.final encode).messages
  count : (q.closed encode).2.failed = false →
    (q.final encode).traceCount = (q.final encode).counted.length
  messages : (q.closed encode).2.failed = false →
    ((q.final encode).counted.map fun e => messageOf e.bytes) =
      (q.final encode).messages.map some
  all : (q.closed encode).2.failed = false → (q.final encode).reader ≠ .ended .error →
    Trace.octfTraceIsEmpty (q.final encode).ring.shared = .ok true →
    (q.final encode).counted = (q.final encode).ring.accepted

/-- Whatever the producers and the job's thread interleave. -/
theorem job_writes (q : RecordedQueue) (encode : Event → List UInt8)
    (hwrite : ∀ e ∈ (q.final encode).ring.given, Writable encode e.2) : q.Writes encode := by
  obtain ⟨-, hi⟩ := RecordedQueue.inv hwrite
  have hcounted := fun hok : (q.closed encode).2.failed = false =>
    hi.counted (FileTraceSerializer.failed_of_close q.ops hok)
  refine ⟨hi.error, fun hok => (RecordedQueue.contents_eq hwrite hok).2, fun hok => ?_,
    fun hok => ?_,
    fun hok => RecordedQueue.counted_of_isEmpty hwrite hok⟩
  · obtain ⟨-, -, hcount, hmessages, -⟩ := hcounted hok
    have hlen := congrArg List.length hmessages
    rw [List.length_map, List.length_map] at hlen
    rw [hcount, hlen]
  · obtain ⟨-, -, -, hmessages, -⟩ := hcounted hok
    exact hmessages

theorem job_writes_completion : (oneCompletion 1).Writes encodeCompletion := by
  refine job_writes (oneCompletion 1) encodeCompletion fun e he => ?_
  have hgiven : ((oneCompletion 1).final encodeCompletion).ring.given = [(56, completion 1)] := by
    decide +kernel
  rw [hgiven, List.mem_singleton] at he
  rw [he]
  exact (restored_completion 1 (by simp)).writable

theorem RecordedQueue.readBack_eq {q : RecordedQueue} {encode : Event → List UInt8}
    {parse : List UInt8 → Option Event}
    (hevents : ∀ e ∈ (q.final encode).ring.given, Restored encode parse e.2)
    (hok : (q.closed encode).2.failed = false) :
    q.readBack encode parse = ((q.final encode).messages, .finished) := by
  have hwrite := fun e he => (hevents e he).writable
  obtain ⟨-, hi⟩ := RecordedQueue.inv hwrite
  obtain ⟨-, -, -, -, hgiven, -⟩ := hi.counted (FileTraceSerializer.failed_of_close q.ops hok)
  obtain ⟨-, hcontents⟩ := RecordedQueue.contents_eq hwrite hok
  have hmem : ∀ message ∈ (q.final encode).messages, ∃ e ∈ (q.final encode).ring.given,
      messageOf e.2 = some message := by
    intro message hmessage
    obtain ⟨e, he, hmessage⟩ := List.mem_filterMap.mp hmessage
    exact ⟨e.content, hgiven e he, hmessage⟩
  unfold RecordedQueue.readBack
  rw [hcontents]
  refine readAll_frames_of_mem (fun message hm => ?_) (fun message hm => ?_)
    (Nat.lt_succ_of_le length_le_frames)
  · obtain ⟨e, he, hmessage⟩ := hmem message hm
    exact (hevents e he).parsed message hmessage
  · obtain ⟨e, he, hmessage⟩ := hmem message hm
    exact (hevents e he).writable.short message hmessage

/-- The closed files are read to their ends, and the parser of these files delivers the message of
every counted event of every queue once, those of a queue in the order in which its ring accepted
them, and all of them in the order of their sequence ids if the events of every queue were. -/
structure Delivered (encode : Event → List UInt8) (parse : List UInt8 → Option Event)
    (traceLocation : String) (queues : List RecordedQueue) : Prop where
  finished : ∀ q ∈ queues, (q.readBack encode parse).2 = .finished
  counted : ∀ q ∈ queues, ((q.final encode).counted.map fun e => messageOf e.bytes) =
    (q.readBack encode parse).1.map some
  delivered : let files := queues.map fun q => (q.readBack encode parse).1
    ∃ p rounds out,
      TraceFileParser.init traceLocation (some (TraceFileParser.summaryOf files)) files = .ok p ∧
      TraceFileParser.processEvents rounds p = (out, .finished) ∧
      out.Perm files.flatten ∧ Interleaving files out ∧
      ((∀ q ∈ queues, (q.final encode).counted.Pairwise fun a b =>
        sidOf a.bytes ≤ sidOf b.bytes) → out.Pairwise fun a b => a.sid ≤ b.sid)

/-- What is read back of the files is the messages of the counted events. -/
theorem files_eq {encode : Event → List UInt8} {parse : List UInt8 → Option Event}
    {queues : List RecordedQueue}
    (hevents : ∀ q ∈ queues, ∀ e ∈ (q.final encode).ring.given, Restored encode parse e.2)
    (hok : ∀ q ∈ queues, (q.closed encode).2.failed = false) :
    (queues.map fun q => (q.readBack encode parse).1) =
      queues.map fun q => (q.final encode).messages :=
  List.map_congr_left fun q hq => by rw [RecordedQueue.readBack_eq (hevents q hq) (hok q hq)]

/-- A message of a queue has the sequence id of a counted event. -/
theorem exists_counted {q : RecordedQueue} {encode : Event → List UInt8} {message : Event}
    (hm : message ∈ (q.final encode).messages) :
    ∃ e ∈ (q.final encode).counted, message.sid = sidOf e.bytes := by
  obtain ⟨e, he, hmessage⟩ := List.mem_filterMap.mp hm
  exact ⟨e, he, sid_of_messageOf hmessage⟩

theorem disjoint_messages {encode : Event → List UInt8} {queues : List RecordedQueue}
    (hsids : queues.Pairwise fun q r => ∀ a ∈ (q.final encode).counted,
      ∀ b ∈ (r.final encode).counted, sidOf a.bytes ≠ sidOf b.bytes) :
    (queues.map fun q => (q.final encode).messages).Pairwise
      fun f g => ∀ a ∈ f, ∀ b ∈ g, a.sid ≠ b.sid := by
  rw [List.pairwise_map]
  refine hsids.imp fun {q r} hqr a ha b hb => ?_
  obtain ⟨e, he, hae⟩ := exists_counted ha
  obtain ⟨f, hf, hbf⟩ := exists_counted hb
  rw [hae, hbf]
  exact hqr e he f hf

/-- A trace is delivered as it was recorded when no file operation failed and no two queues counted
events with one sequence id. -/
theorem parsed_recorded (encode : Event → List UInt8) (parse : List UInt8 → Option Event)
    (traceLocation : String) (queues : List RecordedQueue) (hqueues : queues ≠ [])
    (hevents : ∀ q ∈ queues, ∀ e ∈ (q.final encode).ring.given, Restored encode parse e.2)
    (hok : ∀ q ∈ queues, (q.closed encode).2.failed = false)
    (hsids : queues.Pairwise fun q r => ∀ a ∈ (q.final encode).counted,
      ∀ b ∈ (r.final encode).counted, sidOf a.bytes ≠ sidOf b.bytes) :
    Delivered encode parse traceLocation queues := by
  have hread : ∀ q ∈ queues, (q.readBack encode parse) = ((q.final encode).messages, .finished) :=
    fun q hq => RecordedQueue.readBack_eq (hevents q hq) (hok q hq)
  have hfiles := files_eq hevents hok
  have hdisjoint := disjoint_messages hsids
  rw [← hfiles] at hdisjoint
  obtain ⟨p, rounds, out, hinit, hrun, hperm, hout, hsorted⟩ :=
    TraceFileParser.deliversAll_of_disjoint traceLocation (by simpa using hqueues) hdisjoint
  refine ⟨fun q hq => ?_, fun q hq => ?_, p, rounds, out, hinit, hrun, hperm, hout,
    fun hascending => ?_⟩
  · rw [hread q hq]
  · rw [hread q hq]
    obtain ⟨-, hi⟩ := RecordedQueue.inv fun e he => (hevents q hq e he).writable
    obtain ⟨-, -, -, hmessages, -⟩ :=
      hi.counted (FileTraceSerializer.failed_of_close q.ops (hok q hq))
    exact hmessages
  · apply hsorted
    intro file hfile
    rw [hfiles] at hfile
    obtain ⟨q, hq, rfl⟩ := List.mem_map.mp hfile
    refine List.Pairwise.filterMap _ (fun a b hab x hx y hy => ?_) (hascending q hq)
    change x.header.sid ≤ y.header.sid
    rw [sid_of_messageOf hx, sid_of_messageOf hy]
    exact hab

/-- Two queues, the first with the later event. -/
theorem parsed_recorded_two : Delivered encodeCompletion parseCompletion "trace"
    [oneCompletion 2, oneCompletion 1] := by
  have hqueues : ∀ q ∈ [oneCompletion 2, oneCompletion 1], ∃ sid ∈ [(1 : UInt8), 2],
      q = oneCompletion sid := by simp
  have hgiven : ∀ sid ∈ [(1 : UInt8), 2],
      ((oneCompletion sid).final encodeCompletion).ring.given = [(56, completion sid)] := by
    decide +kernel
  have hclosed : ∀ sid ∈ [(1 : UInt8), 2],
      ((oneCompletion sid).closed encodeCompletion).2.failed = false := by
    decide +kernel
  refine parsed_recorded encodeCompletion parseCompletion "trace" _ (List.cons_ne_nil _ _)
    (fun q hq e he => ?_) (fun q hq => ?_) ?_
  · obtain ⟨sid, hsid, rfl⟩ := hqueues q hq
    rw [hgiven sid hsid, List.mem_singleton] at he
    rw [he]
    exact restored_completion sid hsid
  · obtain ⟨sid, hsid, rfl⟩ := hqueues q hq
    exact hclosed sid hsid
  · simp only [List.pairwise_cons, List.mem_singleton, forall_eq, List.not_mem_nil,
      IsEmpty.forall_iff, implies_true, List.Pairwise.nil, and_true]
    decide +kernel

end Octf.Interface
