import Octf.Analytics.TraceStatistics
import Octf.Interface.RecordedTrace

/-! From the producers to the statistics: every IO that the rings of a trace accepted and their jobs
stored is counted once, in the statistics of its device. -/
namespace Octf.Interface
open Foundation Octf.Parser Octf.Analytics
open ParsedIoTraceEventHandlerStatistics

/-- The IOs among the events that the jobs of the queues have counted. -/
def recordedSubmissions (version : Version) (encode : Event → List UInt8)
    (queues : List RecordedQueue) : List Submission :=
  queues.flatMap fun q => (q.final encode).counted.filterMap fun e =>
    (messageOf e.bytes).bind (submission version)

theorem operation_ne {m : Memory} {type : IoType} (h : TraceConverter.operation m = some type) :
    type ≠ .UnknownIoType := by
  unfold TraceConverter.operation at h
  split_ifs at h <;> cases h <;> decide

/-- The converter lets no IO of an unknown operation through. -/
theorem operation_of_messageOf {event : List UInt8} {message : Event} {src : EventIo}
    (h : messageOf event = some message) (hio : message.eventType = .io src) :
    src.operation ≠ .UnknownIoType := by
  rw [messageOf, TraceConverter.convertTrace_eq] at h
  rcases hkind : (RawEvent.ofBytes event).kind with _ | kind
  · simp [hkind, TraceConverter.nullptr] at h
  · simp only [hkind, Option.map_some, Option.getD_some] at h
    cases kind with
    | deviceDesc =>
      simp only [TraceConverter.convertKind, TraceConverter.convertDesc] at h
      generalize (RawEvent.ofBytes event).readName 40 256 = name,
        (RawEvent.ofBytes event).readName 296 256 = model at h
      obtain ⟨_ | name, nameRead⟩ := name
      · cases h
      · obtain ⟨_ | model, modelRead⟩ := model <;> cases h
        cases hio
    | io =>
      simp only [TraceConverter.convertKind, TraceConverter.convertIo] at h
      cases hop : TraceConverter.operation (RawEvent.ofBytes event).memory with
      | none =>
        rw [hop] at h
        cases h
      | some operation =>
        rw [hop] at h
        cases h
        cases hio
        exact operation_ne hop
    | fsFileName =>
      simp only [TraceConverter.convertKind, TraceConverter.convertFsFileName] at h
      generalize (RawEvent.ofBytes event).readName 80 64 = name at h
      obtain ⟨_ | name, nameRead⟩ := name <;> cases h
      cases hio
    | ioCmpl | fsMeta | fsFileEvent =>
      cases h
      cases hio

theorem operation_of_recorded {version : Version} {encode : Event → List UInt8}
    {queues : List RecordedQueue} {r : Submission}
    (hr : r ∈ recordedSubmissions version encode queues) : r.operation ≠ .UnknownIoType := by
  obtain ⟨q, -, hr⟩ := List.mem_flatMap.mp hr
  obtain ⟨e, -, he⟩ := List.mem_filterMap.mp hr
  obtain ⟨message, hmessage, hsubmission⟩ := Option.bind_eq_some_iff.mp he
  unfold submission at hsubmission
  split at hsubmission
  · next src hio =>
    cases hsubmission
    exact operation_of_messageOf hmessage hio
  · cases hsubmission

theorem submissions_messages (version : Version) (encode : Event → List UInt8)
    (queues : List RecordedQueue) :
    submissions version (queues.map fun q => (q.final encode).messages).flatten =
      recordedSubmissions version encode queues := by
  unfold submissions recordedSubmissions
  rw [List.filterMap_flatten, List.map_map, List.flatMap_def]
  congr 1
  refine List.map_congr_left fun q _ => ?_
  exact List.filterMap_filterMap ..

/-- When no file operation fails and no two queues have an event with one sequence id, the trace is
parsed to its end, and the statistics that are computed from it count every recorded IO once. -/
theorem recorded_statistics (encode : Event → List UInt8) (parse : List UInt8 → Option Event)
    (traceLocation : String) (queues : List RecordedQueue) (hqueues : queues ≠ [])
    (hevents : ∀ q ∈ queues, ∀ e ∈ (q.final encode).ring.given, Restored encode parse e.2)
    (hok : ∀ q ∈ queues, (q.closed encode).2.failed = false)
    (hsids : queues.Pairwise fun q r => ∀ a ∈ (q.final encode).counted,
      ∀ b ∈ (r.final encode).counted, sidOf a.bytes ≠ sidOf b.bytes)
    (c : Config) (hsub : c.subrangeEnd = 0) :
    let files := queues.map fun q => (q.readBack encode parse).1
    let recorded := recordedSubmissions c.version encode queues
    ∃ p rounds out,
      TraceFileParser.init traceLocation (some (TraceFileParser.summaryOf files)) files = .ok p ∧
      TraceFileParser.processEvents rounds p = (out, .finished) ∧
      ∀ set, processEvents c DEFAULT_LBA_HIT_MAP_RANGE_SIZE out = .ok set → ∀ id,
        let stats := set.statisticsOf DEFAULT_LBA_HIT_MAP_RANGE_SIZE id
        Summarizes recorded id stats ∧
          IoStatistics.sumOfParts .count stats = recorded.countP fun r => r.device = id := by
  intro files recorded
  have hfiles : files = queues.map fun q => (q.final encode).messages := files_eq hevents hok
  have hdisjoint := disjoint_messages hsids
  rw [← hfiles] at hdisjoint
  obtain ⟨p, rounds, out, hinit, hrun, hperm, -⟩ :=
    TraceFileParser.deliversAll_of_disjoint traceLocation (by simpa [files] using hqueues) hdisjoint
  have hrecorded : (submissions c.version out).Perm recorded := by
    have hsame := hperm.filterMap (submission c.version)
    rw [hfiles] at hsame
    exact hsame.trans (List.Perm.of_eq (submissions_messages c.version encode queues))
  refine ⟨p, rounds, out, hinit, hrun, fun set hset id => ?_⟩
  have hsummary := (summarizes_of_processEvents hsub hset id).perm hrecorded
  exact ⟨hsummary, hsummary.all fun r hr => operation_of_recorded hr⟩

/-- A read of which only the sequence id and the operation are not zero. -/
def readEvent (sid : UInt8) : List UInt8 :=
  sid :: List.replicate 15 0 ++ 1 :: List.replicate 39 0 ++ 82 :: List.replicate 7 0

/-- The stored form of its message. -/
def encodeRead (message : Event) : List UInt8 :=
  [10, 2, 8, UInt8.ofNat message.header.sid, 18, 2, 40, 1]

def parseRead : List UInt8 → Option Event
  | [10, 2, 8, sid, 18, 2, 40, 1] => some ⟨⟨sid.toNat, 0⟩,
      .io ⟨0, 0, 0, 0, .Read, false, false, 0, 0, false, false, false⟩⟩
  | _ => none

/-- A queue with one read, whose job is stopped at once. -/
def oneRead (sid : UInt8) : RecordedQueue :=
  { oneCompletion sid with
    schedule := .produce (.push (readEvent sid)) :: List.replicate 7 (.consume true)
    fits := by
      simp [Recording.Action.Fits, Trace.Op.EventInRange, Trace.Op.WithinBound,
        Trace.rsizeMaxMem, readEvent] }

theorem restored_read : ∀ sid ∈ [(1 : UInt8), 2],
    Restored encodeRead parseRead (readEvent sid) := by
  have hkind : ∀ sid ∈ [(1 : UInt8), 2],
      (RawEvent.ofBytes (readEvent sid)).kind = some .io := by decide +kernel
  have hparse : ∀ sid ∈ [(1 : UInt8), 2], ∀ message ∈ messageOf (readEvent sid),
      parseRead (encodeRead message) = some message := by decide +kernel
  intro sid hsid
  refine ⟨⟨⟨fun kind h => ?_, fun h => ?_⟩, fun message _ => ?_⟩, hparse sid hsid⟩
  · obtain rfl := Option.some.inj ((hkind sid hsid).symm.trans h)
    trivial
  · cases (hkind sid hsid).symm.trans h
  · exact (by decide : 8 < 2 ^ 31)

/-- Two queues with one read each. -/
theorem recorded_statistics_two :
    let queues := [oneRead 2, oneRead 1]
    let files := queues.map fun q => (q.readBack encodeRead parseRead).1
    let recorded := recordedSubmissions v2.version encodeRead queues
    ∃ p rounds out,
      TraceFileParser.init "trace" (some (TraceFileParser.summaryOf files)) files = .ok p ∧
      TraceFileParser.processEvents rounds p = (out, .finished) ∧
      ∀ set, processEvents ParsedIoTraceEventHandler.plain DEFAULT_LBA_HIT_MAP_RANGE_SIZE out =
          .ok set → ∀ id, let stats := set.statisticsOf DEFAULT_LBA_HIT_MAP_RANGE_SIZE id
        Summarizes recorded id stats ∧
          IoStatistics.sumOfParts .count stats = recorded.countP fun r => r.device = id := by
  have hqueues : ∀ q ∈ [oneRead 2, oneRead 1], ∃ sid ∈ [(1 : UInt8), 2], q = oneRead sid := by
    simp
  have hgiven : ∀ sid ∈ [(1 : UInt8), 2],
      ((oneRead sid).final encodeRead).ring.given = [(64, readEvent sid)] := by
    decide +kernel
  have hclosed : ∀ sid ∈ [(1 : UInt8), 2],
      ((oneRead sid).closed encodeRead).2.failed = false := by
    decide +kernel
  refine recorded_statistics encodeRead parseRead "trace" _ (List.cons_ne_nil _ _)
    (fun q hq e he => ?_) (fun q hq => ?_) ?_ ParsedIoTraceEventHandler.plain rfl
  · obtain ⟨sid, hsid, rfl⟩ := hqueues q hq
    rw [hgiven sid hsid, List.mem_singleton] at he
    rw [he]
    exact restored_read sid hsid
  · obtain ⟨sid, hsid, rfl⟩ := hqueues q hq
    exact hclosed sid hsid
  · simp only [List.pairwise_cons, List.mem_singleton, forall_eq, List.not_mem_nil,
      IsEmpty.forall_iff, implies_true, List.Pairwise.nil, and_true]
    decide +kernel

end Octf.Interface
