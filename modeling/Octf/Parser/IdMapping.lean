import Octf.Parser.CompletionMatching

/-! The id mapping holds pointers into the queue. No call of the handler leaves one behind for an
event that has been pushed out, so completions and metadata are written to cached events only. -/
namespace Octf.Parser
open Foundation

namespace ParsedIoTraceEventHandler

/-- A call of the handler, and whether the parser is finished then. -/
inductive Call where
  | handleEvent (isFinished : Bool) (event : Event)
  | flushEvents (isFinished : Bool)

variable (c : Config)

def Call.apply : Call → ParsedIoTraceEventHandler → ParsedIoTraceEventHandler
  | .handleEvent isFinished event, s => s.handleEvent c isFinished event
  | .flushEvents isFinished, s => s.flushEvents c isFinished

/-- The steps of a call. -/
def Call.ops : Call → ParsedIoTraceEventHandler → List Op
  | .handleEvent isFinished event, s => s.eventOps c isFinished event
  | .flushEvents isFinished, s => s.flushOps c isFinished

/-- The pointer that an event of the trace is written through. -/
def writtenThrough (event : Event) (s : ParsedIoTraceEventHandler) : Option ℕ :=
  match event.eventType with
  | .ioCompletion cmpl =>
    if isOutside c cmpl.lba cmpl.len then none else s.idMapping cmpl.refId
  | .filesystemMeta src => s.idMapping (c.version.metaRef src)
  | _ => none

/-- Every entry of the mapping refers to a cached IO that has its key in the place of the
sequence id. -/
def MappingLive (s : ParsedIoTraceEventHandler) : Prop :=
  ∀ id pointer, s.idMapping id = some pointer → id ≠ 0 ∧
    ∃ event, s.cached pointer = some event ∧ event.io.isSome ∧ event.header.sid = id

variable {c} {s : ParsedIoTraceEventHandler}

/-! ### What an event is written through -/

theorem idMapping_of_getCachedEventById {id pointer : ℕ} {event : ParsedEvent}
    (hfound : s.getCachedEventById id = some (pointer, event)) :
    s.idMapping id = some pointer := by
  unfold getCachedEventById at hfound
  split at hfound
  · cases hfound
  · next hid =>
    obtain ⟨_, _, heq⟩ := Option.map_eq_some_iff.mp hfound
    cases heq
    exact hid

theorem cached_delMapping (event : ParsedEvent) (pointer : ℕ) :
    (s.delMapping event).2.cached pointer = s.cached pointer := by
  unfold delMapping
  split_ifs <;> rfl

/-! ### The mapping over a run -/

theorem cached_of_entry {pointer : ℕ} {request : Cached}
    (hentry : s.view.entry pointer = some request) :
    ∃ event, s.cached pointer = some event ∧ event.entry = some request := by
  obtain ⟨hpopped, -, hget⟩ := IoCache.entry_eq_some hentry
  rw [view_queue, List.getElem?_map] at hget
  obtain ⟨event, hevent, hrequest⟩ := Option.map_eq_some_iff.mp hget
  exact ⟨event, by rw [cached, if_pos (by exact hpopped)]; exact hevent, hrequest⟩

/-- A consistent cache has no pointer to an event that is gone. -/
theorem mappingLive_of_consistent (hs : s.view.Consistent) : s.MappingLive := by
  intro id pointer hid
  obtain ⟨hne, request, hentry, hsid, -⟩ := hs.mapped hid
  obtain ⟨event, hevent, hrequest⟩ := cached_of_entry hentry
  obtain ⟨io, hio, rfl⟩ := Option.map_eq_some_iff.mp hrequest
  exact ⟨hne, event, hevent, by simp [hio], hsid⟩

theorem run_ops (call : Call) : run (Op.apply c) (call.ops c s) s = call.apply c s := by
  cases call with
  | handleEvent isFinished event => exact run_eventOps event
  | flushEvents isFinished => exact run_flushOps

theorem consistent_apply (call : Call) (hs : s.view.Consistent) :
    (call.apply c s).view.Consistent := by
  rw [← run_ops, view_run]
  exact hs.after_run _

theorem consistent_run (calls : List Call) (hs : s.view.Consistent) :
    (run (Call.apply c) calls s).view.Consistent := by
  induction calls generalizing s with
  | nil => exact hs
  | cons call calls ih => exact ih (consistent_apply call hs)

/-- After any calls, with any queue limit, the mapping has no stale pointers, and what an event
of the trace is written through has not been pushed out. -/
theorem run_mappingLive (c : Config) (limit : ℕ) (calls : List Call) :
    (run (Call.apply c) calls { init with limit := limit }).MappingLive ∧
      ∀ e pointer,
        (run (Call.apply c) calls { init with limit := limit }).writtenThrough c e = some pointer →
        (run (Call.apply c) calls { init with limit := limit }).popped ≤ pointer ∧
          pointer < (run (Call.apply c) calls { init with limit := limit }).next := by
  have hs : (run (Call.apply c) calls { init with limit := limit }).view.Consistent :=
    consistent_run calls IoCache.consistent_start
  refine ⟨mappingLive_of_consistent hs, ?_⟩
  intro e pointer hwritten
  obtain ⟨id, hid⟩ : ∃ id,
      (run (Call.apply c) calls { init with limit := limit }).idMapping id = some pointer := by
    unfold writtenThrough at hwritten
    split at hwritten
    · split_ifs at hwritten
      exact ⟨_, hwritten⟩
    · exact ⟨_, hwritten⟩
    · cases hwritten
  have hlt := hs.number_lt hid
  rw [view_next] at hlt
  exact hlt

end ParsedIoTraceEventHandler

end Octf.Parser
