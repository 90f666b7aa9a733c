import Octf.Foundation.Run
import Octf.Parser.ContentMapping

/-! Which IO a completion is attributed to. The handler takes the oldest one whose latency is zero;
those to which none is attributed yet are among them, behind the ones completed in no time. -/
namespace Octf.Parser.v0
open Foundation

namespace ParsedIoTraceEventHandler

variable (s : ParsedIoTraceEventHandler)

/-- The oldest IO in the queue to which no completion has been attributed yet. -/
def oldestOpen (key : Key) : Option (ℕ × ParsedEvent) :=
  s.queue.find? fun entry => Holds key entry && entry.1 ∉ s.latencySet

/-- The oldest IO in the queue whose completion came at its own time. -/
def oldestTimeless (key : Key) : Option (ℕ × ParsedEvent) :=
  s.queue.find? fun entry =>
    Holds key entry && (entry.1 ∈ s.latencySet && entry.2.latency = 0)

/-- The IO a completion is to be attributed to. -/
def attribution (header : EventHeader) (cmpl : EventIoCompletion) : Option ℕ :=
  (s.oldestOpen (completionKey cmpl)).bind fun entry =>
    if header.timestamp < entry.2.header.timestamp then none else some entry.1

def expected (event : Event) : Option ℕ :=
  match event.eventType with
  | .ioCompletion cmpl => s.attribution event.header cmpl
  | _ => none

/-- An event attributes a completion as it is to be. -/
def Attributes (c : Config) (op : Event × Bool) (s : ParsedIoTraceEventHandler) : Prop :=
  (s.handleEvent c op).latencySet = s.latencySet ++ (s.expected op.1).toList

/-- No IO like that of a completion is queued which was completed at its own time, or else the
completion is before the oldest such IO and belongs to none. -/
def Distinguishes (op : Event × Bool) (s : ParsedIoTraceEventHandler) : Prop :=
  ∀ cmpl, op.1.eventType = .ioCompletion cmpl →
    ∀ entry, s.oldestTimeless (completionKey cmpl) = some entry →
      op.1.header.timestamp < entry.2.header.timestamp ∧ s.attribution op.1.header cmpl = none

variable {s} {c : Config}

/-- It was completed at its own time, if there is such an IO, and else it is open. -/
theorem Consistent.get_eq_or (h : Consistent c s) (key : Key) :
    s.get key = (s.oldestTimeless key).or (s.oldestOpen key) := by
  have hsplit : s.queue.find? (fun entry => Holds key entry && entry.2.latency = 0) =
      s.queue.find? fun entry =>
        (Holds key entry && (entry.1 ∈ s.latencySet && entry.2.latency = 0)) ||
          (Holds key entry && entry.1 ∉ s.latencySet) := by
    refine List.find?_congr fun entry hmem => ?_
    have hlatent := h.latent entry hmem
    by_cases hin : entry.1 ∈ s.latencySet
    · simp [hin]
    · have hzero : entry.2.latency = 0 := by_contra fun hne => hin (hlatent hne)
      simp [hin, hzero]
  rw [h.get_eq, hsplit]
  refine find?_or_of_pairwise ((h.inOrder key).imp ?_)
  intro a b hab ha
  simp only [Bool.and_eq_true, decide_eq_true_eq] at ha
  by_cases hb : Holds key b = true
  · have hnot : b.1 ∉ s.latencySet := fun hmem => ha.2 (hab ha.1 hb hmem)
    simp [hnot]
  · simp [hb]

/-! ### What an event sets -/

theorem latencySet_flushEvents (isFinished : Bool) :
    (s.flushEvents c isFinished).latencySet = s.latencySet := by
  refine flushEvents_induction (P := fun s' => s'.latencySet = s.latencySet) ?_ isFinished rfl
  intro s' hs'
  rw [← hs']
  unfold pushOutEvent
  split <;> rfl

theorem latencySet_handleEvent (op : Event × Bool) (hrunning : s.thrown = false) :
    (s.handleEvent c op).latencySet = (s.acceptEvent c op.1).latencySet := by
  simp only [handleEvent, hrunning, Bool.false_eq_true, if_false]
  split
  · exact latencySet_flushEvents op.2
  · rfl

/-- A completion sets the latency of the IO that is got, if it is not before that IO. -/
theorem latencySet_acceptIoCompletion (header : EventHeader) (cmpl : EventIoCompletion) :
    (s.acceptIoCompletion header cmpl).latencySet = s.latencySet ++
      ((s.get (completionKey cmpl)).bind fun entry =>
        if header.timestamp < entry.2.header.timestamp then none else some entry.1).toList := by
  unfold acceptIoCompletion
  cases s.get (completionKey cmpl) with
  | none => simp [adjustDepth]
  | some entry =>
    dsimp only
    split_ifs with hbefore
    · simp [adjustDepth, hbefore]
    · simp [lowerDepth, update, hbefore]

theorem latencySet_touchDevice (id : ℕ) : (s.touchDevice id).latencySet = s.latencySet := by
  unfold touchDevice
  split <;> rfl

theorem latencySet_noteOffsets (header : EventHeader) :
    (s.noteOffsets header).latencySet = s.latencySet := by
  unfold noteOffsets
  split <;> rfl

theorem get_noteOffsets (header : EventHeader) (key : Key) :
    (s.noteOffsets header).get key = s.get key := by
  unfold noteOffsets
  split <;> rfl

/-- Only completions set a latency. -/
theorem latencySet_acceptEvent {event : Event}
    (hother : ∀ cmpl, event.eventType ≠ .ioCompletion cmpl) :
    (s.acceptEvent c event).latencySet = s.latencySet := by
  refine Eq.trans ?_ (latencySet_noteOffsets event.header)
  unfold acceptEvent
  dsimp only
  generalize s.noteOffsets event.header = t
  split
  · rfl
  · unfold acceptIo
    split
    · rfl
    · dsimp only
      split <;> exact latencySet_touchDevice _
  · rename_i cmpl htype
    exact absurd htype (hother cmpl)
  · unfold acceptFilesystemMeta
    split
    · rfl
    · dsimp only
      split
      · rfl
      · exact latencySet_touchDevice _
  · exact latencySet_touchDevice _
  · rfl
  · rfl

/-- The IO that a completion is given to, if it is not before that IO. -/
def given (s : ParsedIoTraceEventHandler) (header : EventHeader) (cmpl : EventIoCompletion) :
    Option ℕ :=
  (s.get (completionKey cmpl)).bind fun entry =>
    if header.timestamp < entry.2.header.timestamp then none else some entry.1

theorem given_eq_iff (h : Consistent c s) (header : EventHeader) (cmpl : EventIoCompletion) :
    s.given header cmpl = s.attribution header cmpl ↔
      ∀ entry, s.oldestTimeless (completionKey cmpl) = some entry →
        header.timestamp < entry.2.header.timestamp ∧ s.attribution header cmpl = none := by
  rw [given, h.get_eq_or]
  cases htimeless : s.oldestTimeless (completionKey cmpl) with
  | none => simp [attribution]
  | some entry =>
    have hset : entry.1 ∈ s.latencySet := by
      have hfound := List.find?_some htimeless
      simp only [Bool.and_eq_true, decide_eq_true_eq] at hfound
      exact hfound.2.1
    have hopen : s.attribution header cmpl ≠ some entry.1 := by
      intro heq
      obtain ⟨entry', hentry', hif⟩ := Option.bind_eq_some_iff.mp heq
      have hfound := List.find?_some hentry'
      simp only [Bool.and_eq_true, decide_eq_true_eq] at hfound
      split at hif
      · exact absurd hif (by simp)
      · exact hfound.2 (Option.some.inj hif ▸ hset)
    by_cases hbefore : header.timestamp < entry.2.header.timestamp
    · simp [hbefore, eq_comm]
    · simp [hbefore, hopen.symm]

/-- No IO outside of the subrange is cached. -/
theorem holds_outside (h : Consistent c s) {cmpl : EventIoCompletion}
    (houtside : isOutside c cmpl.lba cmpl.len = true) {entry : ℕ × ParsedEvent}
    (hentry : entry ∈ s.queue) : Holds (completionKey cmpl) entry = false := by
  by_contra hholds
  obtain ⟨hio, hkey⟩ := holds_iff.mp (Bool.eq_true_of_not_eq_false hholds)
  obtain ⟨io, hsome⟩ := Option.isSome_iff_exists.mp hio
  have hinside := h.inside entry hentry io hsome
  simp only [parsedKey, completionKey, hsome, Option.map_some, Option.getD_some,
    Key.mk.injEq] at hkey
  rw [hkey.2.1, hkey.2.2, houtside] at hinside
  exact absurd hinside (by simp)

/-- A completion is attributed as it is to be exactly when no IO completed at its own time is taken
for an open one. -/
theorem attributes_iff (h : Consistent c s) (op : Event × Bool) :
    Attributes c op s ↔ Distinguishes op s := by
  unfold Attributes Distinguishes expected
  rw [latencySet_handleEvent op h.running]
  cases htype : op.1.eventType with
  | ioCompletion cmpl =>
    have hinj : ∀ a b : Option ℕ, a.toList = b.toList ↔ a = b := by
      intro a b
      cases a <;> cases b <;> simp
    have hone : (∀ cmpl', EventType.ioCompletion cmpl = .ioCompletion cmpl' → ∀ entry,
        s.oldestTimeless (completionKey cmpl') = some entry →
          op.1.header.timestamp < entry.2.header.timestamp ∧
            s.attribution op.1.header cmpl' = none) ↔ ∀ entry,
        s.oldestTimeless (completionKey cmpl) = some entry →
          op.1.header.timestamp < entry.2.header.timestamp ∧
            s.attribution op.1.header cmpl = none :=
      ⟨fun hall => hall cmpl rfl, by rintro hall _ ⟨⟩; exact hall⟩
    rw [hone, ← given_eq_iff h]
    have hgiven : (s.acceptEvent c op.1).latencySet =
        s.latencySet ++ (s.given op.1.header cmpl).toList := by
      unfold acceptEvent
      rw [htype]
      dsimp only
      split
      · rename_i houtside
        have hnone : s.get (completionKey cmpl) = none := by
          rw [h.get_eq, List.find?_eq_none]
          intro entry hentry
          simp [holds_outside h houtside hentry]
        rw [latencySet_noteOffsets, given, hnone]
        exact (List.append_nil _).symm
      · rw [latencySet_acceptIoCompletion, latencySet_noteOffsets, get_noteOffsets, given]
    rw [hgiven, List.append_right_inj, hinj]
  | _ =>
    rw [latencySet_acceptEvent (by simp [htype])]
    simp

/-! ### Whole traces -/

/-- One event after another. -/
def step (c : Config) (op : Event × Bool) (s : ParsedIoTraceEventHandler) :
    ParsedIoTraceEventHandler := s.handleEvent c op

theorem meets_fresh {ops : List (Event × Bool)} (hnodup : (ops.map (·.1.header.sid)).Nodup)
    (hfresh : ∀ op ∈ ops, Fresh op s) : Meets (step c) Fresh ops s := by
  induction ops generalizing s with
  | nil => trivial
  | cons op ops ih =>
    obtain ⟨hnot, hnodup⟩ := List.nodup_cons.mp hnodup
    refine ⟨hfresh op List.mem_cons_self, ih hnodup fun op' hop' hmem => ?_⟩
    rcases sids_handleEvent hmem with hmem | heq
    · exact hfresh op' (List.mem_cons_of_mem _ hop') hmem
    · exact hnot (List.mem_map.mpr ⟨op', hop', heq⟩)

/-- An IO that a completion is attributed to as it is to be had none. -/
theorem nodup_of_attributes {op : Event × Bool} (hattributes : Attributes c op s)
    (hnodup : s.latencySet.Nodup) : (step c op s).latencySet.Nodup := by
  have hnew : ∀ pointer ∈ (s.expected op.1).toList, pointer ∉ s.latencySet := by
    intro pointer hpointer
    have hexpected := Option.mem_toList.mp hpointer
    unfold expected at hexpected
    split at hexpected
    · obtain ⟨entry, hentry, hif⟩ := Option.bind_eq_some_iff.mp hexpected
      have hfound := List.find?_some hentry
      simp only [Bool.and_eq_true, decide_eq_true_eq] at hfound
      split at hif
      · exact absurd hif (by simp)
      · exact Option.some.inj hif ▸ hfound.2
    · exact absurd hexpected (by simp)
  unfold Attributes at hattributes
  rw [step, hattributes, List.nodup_append]
  refine ⟨hnodup, ?_, fun a ha b hb heq => hnew b hb (heq ▸ ha)⟩
  cases s.expected op.1 <;> simp

/-- In a trace with distinct sequence ids every completion is attributed as it is to be, and no IO
gets two, exactly when no completion meets an IO like its own in the queue that was completed at its
own time, unless it is too early for any. -/
theorem attributed_iff_distinguishes (c : Config) (ops : List (Event × Bool))
    (hsids : (ops.map (·.1.header.sid)).Nodup) :
    (Meets (step c) (Attributes c) ops init ∧ (run (step c) ops init).latencySet.Nodup) ↔
      Meets (step c) Distinguishes ops init := by
  have hfresh : Meets (step c) Fresh ops init := meets_fresh hsids fun op _ => List.not_mem_nil
  have hsame : Meets (step c) (fun op s => Attributes c op s ↔ Distinguishes op s) ops init :=
    hfresh.imp_of_invariant (fun op s hsid h => h.handleEvent hsid)
      (fun op s _ h => attributes_iff h op) (consistent_init c)
  rw [← hsame.congr]
  refine and_iff_left_of_imp fun h => ?_
  exact run_invariant (P := fun s => s.latencySet.Nodup)
    (fun op s hop hnodup => nodup_of_attributes hop hnodup) h List.nodup_nil

/-- No subrange, and no names of files. -/
def plain : Config := ⟨fun _ _ => "", 0, 0⟩

/-- A read of eight sectors on the device without number. -/
def readAt (sid timestamp : ℕ) : Event × Bool :=
  (⟨⟨sid, timestamp⟩, .io ⟨0, 8, 0, 0, .Read, false, false, 0, 0, false, false, false⟩⟩, false)

def completedAt (sid timestamp : ℕ) (isFinished : Bool) : Event × Bool :=
  (⟨⟨sid, timestamp⟩, .ioCompletion ⟨0, 8, false, 0, 0⟩⟩, isFinished)

theorem attributed_iff_distinguishes_two :
    (Meets (step plain) (Attributes plain) [readAt 1 5, completedAt 2 6 true] init ∧
        (run (step plain) [readAt 1 5, completedAt 2 6 true] init).latencySet.Nodup) ↔
      Meets (step plain) Distinguishes [readAt 1 5, completedAt 2 6 true] init :=
  attributed_iff_distinguishes plain _ (by decide)

/-- The first read is completed at its own time, and gets the completion of the second. -/
theorem timeless_attributed_twice :
    ([readAt 1 5, completedAt 2 5 false, readAt 3 6, completedAt 4 7 true].map
        (·.1.header.sid)).Nodup ∧
      (run (step plain) [readAt 1 5, completedAt 2 5 false, readAt 3 6, completedAt 4 7 true]
        init).latencySet = [0, 0] ∧
      ¬ Meets (step plain) (Attributes plain)
        [readAt 1 5, completedAt 2 5 false, readAt 3 6, completedAt 4 7 true] init := by
  refine ⟨by decide, by decide +kernel, fun h => ?_⟩
  have hlast := h.2.2.2.1
  unfold Attributes at hlast
  exact absurd hlast (by decide +kernel)

end ParsedIoTraceEventHandler

end Octf.Parser.v0
