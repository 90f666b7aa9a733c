import Octf.Interface.SessionSetup

/-! Whether a complete session has closed its trace files. A job publishes its end state before
it closes its file, so what counts is when the state is stored. -/
namespace Octf.Interface
open Foundation Octf.Parser Octf.Storage

namespace JobThread

/-- The file is truncated to its data size and closed successfully. -/
structure Closed (job : JobThread) : Prop where
  result : job.closed = some true
  isOpen : job.serializer.isOpen = false
  length : job.serializer.file.length = job.serializer.dataOffset

/-- A job that has closed its file is at its end. -/
def Sound (job : JobThread) : Prop := job.closed ≠ none → job.pc = .ended

theorem Sound.create (serializer : FileTraceSerializer) : (create serializer).Sound :=
  fun h => absurd rfl h

theorem Sound.doWork {job : JobThread} (h : job.Sound) (choice : Choice) :
    (job.doWork choice).Sound := by
  unfold Sound at h ⊢
  unfold JobThread.doWork
  intro hclosed
  cases hpc : job.pc with
  | close => simp only
  | ended => exact hpc
  | start | consumeTraces | publish endState =>
    simp only [hpc] at hclosed
    rw [hpc] at h
    exact absurd (h hclosed) (by simp)

theorem Closed.doWork {job : JobThread} (hclosed : job.Closed) (h : job.Sound)
    (choice : Choice) : (job.doWork choice).Closed := by
  have hend : job.pc = .ended := h (by rw [hclosed.result]; simp)
  have hstay : job.doWork choice = job := by
    unfold JobThread.doWork
    rw [hend]
  rwa [hstay]

end JobThread

namespace TraceManager

variable {Q : Type} [DecidableEq Q] {s : TraceManager Q} (numberOfJobs : ℕ)
  (output : ℕ → FileTraceSerializer)

def AllClosed (s : TraceManager Q) : Prop := ∀ job ∈ s.jobs, job.Closed

/-- The session or its stored summary is complete. -/
def Complete (s : TraceManager Q) : Prop :=
  s.state = .complete ∨ ∃ x ∈ s.summary.head?, x.state = .COMPLETE

/-- Complete means that the trace files are closed. -/
def FilesClosed (s : TraceManager Q) : Prop := s.Complete → s.AllClosed

/-- When a thread stores that the session is complete, every job has closed its file. -/
def StoresClosed (action : SessionAction Q) (s : TraceManager Q) : Prop :=
  match action with
  | .thread thread => s.updates (some thread) = .store .complete → s.AllClosed
  | .handler _ => s.updates none = .store .complete → s.AllClosed
  | _ => True

/-- The session is complete, or a thread is about to write that it is. -/
def Finishing (s : TraceManager Q) : Prop :=
  s.Complete ∨ ∃ caller, s.updates caller = .openSummary .complete ∨
    s.updates caller = .truncateSummary .complete ∨ s.updates caller = .writeSummary .complete

theorem TracingState.toProto_eq_complete {state : TracingState} :
    state.toProto = .COMPLETE ↔ state = .complete := by
  cases state <;> simp [TracingState.toProto]

theorem finishing_of_goTo {s' : TraceManager Q} {caller : Option Q} {pc : UpdatePc}
    (h : (s'.goTo caller pc).Finishing) (hupdates : s'.updates = s.updates)
    (hcomplete : s'.Complete → s.Finishing)
    (hpc : pc = .openSummary .complete ∨ pc = .truncateSummary .complete ∨
      pc = .writeSummary .complete → s.Finishing) :
    s.Finishing := by
  rcases h with h | ⟨other, hother⟩
  · exact hcomplete h
  · change Function.update s'.updates caller pc other = _ ∨
      Function.update s'.updates caller pc other = _ ∨
        Function.update s'.updates caller pc other = _ at hother
    rw [hupdates, Function.update_apply] at hother
    split_ifs at hother
    · exact hpc hother
    · exact Or.inr ⟨other, hother⟩

theorem finishing_of_ret {s' : TraceManager Q} {caller : Option Q}
    (h : (s'.ret caller).Finishing) (hupdates : s'.updates = s.updates)
    (hcomplete : s'.Complete → s.Finishing) : s.Finishing :=
  finishing_of_goTo h hupdates hcomplete (by split_ifs <;> simp)

/-- A thread in its update finishes the session only by storing that it is complete. -/
theorem finishing_of_turn {caller : Option Q} (hstore : s.updates caller ≠ .store .complete)
    (h : (s.turn caller).Finishing) : s.Finishing := by
  unfold turn at h
  cases hcaller : s.updates caller with
  | idle => simpa only [hcaller] using h
  | store state =>
    simp only [hcaller] at h
    have hne : state ≠ .complete := by
      rintro rfl
      exact hstore hcaller
    exact finishing_of_goTo h rfl (fun hcomplete => Or.inl (Or.inr (hcomplete.resolve_left hne)))
      (by simp [hne])
  | openSummary state =>
    simp only [hcaller] at h
    have hopen : state = .complete → s.Finishing := by
      rintro rfl
      exact Or.inr ⟨caller, Or.inl hcaller⟩
    split_ifs at h
    · exact finishing_of_goTo h rfl Or.inl (by simp)
    · exact finishing_of_goTo h rfl Or.inl (by simpa using hopen)
  | truncateSummary state =>
    simp only [hcaller] at h
    have hempty : state = .complete → s.Finishing := by
      rintro rfl
      exact Or.inr ⟨caller, Or.inr (Or.inl hcaller)⟩
    exact finishing_of_goTo h rfl
      (fun hcomplete => Or.inl (Or.inl (hcomplete.resolve_right (by simp)))) (by simpa using hempty)
  | writeSummary state =>
    simp only [hcaller] at h
    refine finishing_of_goTo h rfl (fun hcomplete => ?_) (by simp)
    rcases hcomplete with hstate | ⟨x, hx, hsummary⟩
    · exact Or.inl (Or.inl hstate)
    · obtain rfl := Option.some.inj hx
      have hstate := TracingState.toProto_eq_complete.mp hsummary
      exact Or.inr ⟨caller, Or.inr (Or.inr (by rw [hcaller, hstate]))⟩
  | storeError =>
    simp only [hcaller] at h
    exact finishing_of_goTo h rfl
      (fun hcomplete => Or.inl (Or.inr (hcomplete.resolve_left (by simp)))) (by simp)
  | readJob index found =>
    simp only [hcaller] at h
    cases hjob : s.jobs[index]? with
    | none =>
      simp only [hjob] at h
      exact finishing_of_goTo h rfl Or.inl (by simp)
    | some job =>
      simp only [hjob] at h
      exact finishing_of_goTo h rfl Or.inl (by simp)
  | load =>
    simp only [hcaller] at h
    exact finishing_of_goTo h rfl Or.inl (by simp)
  | makeReadOnly =>
    simp only [hcaller] at h
    exact finishing_of_ret h rfl Or.inl
  | testRunning | testError | testComplete =>
    simp only [hcaller] at h
    split_ifs at h
    all_goals
      first
      | exact finishing_of_ret h rfl Or.inl
      | exact finishing_of_goTo h rfl Or.inl (by simp)

/-- What holds as long as completeness is stored over closed files only. -/
structure Closing (s : TraceManager Q) : Prop where
  setup : s.SettingUp → s.Untouched
  jobs : ∀ job ∈ s.jobs, job.Sound
  closed : s.Finishing → s.AllClosed

omit [DecidableEq Q] in
theorem Untouched.not_finishing (h : s.Untouched) : ¬ s.Finishing := by
  rintro ((hstate | ⟨x, hx, hsummary⟩) | ⟨caller, hpc⟩)
  · rw [h.state] at hstate
    cases hstate
  · rw [h.summary x (List.mem_of_mem_head? hx)] at hsummary
    cases hsummary
  · rcases h.quiet caller with hquiet | hquiet | hquiet
    all_goals
      rw [hquiet] at hpc
      simp at hpc

theorem Closing.turn (h : s.Closing) {caller : Option Q}
    (hclosed : s.updates caller = .store .complete → s.AllClosed)
    (hsetup : (s.turn caller).SettingUp → (s.turn caller).Untouched) :
    (s.turn caller).Closing := by
  refine ⟨hsetup, by simpa using h.jobs, fun hnext => ?_⟩
  unfold AllClosed
  rw [jobs_turn]
  by_cases hstore : s.updates caller = .store .complete
  · exact hclosed hstore
  · exact h.closed (finishing_of_turn hstore hnext)

theorem finishing_of_handleJobs {succeeds : Bool}
    (h : (s.handleJobs numberOfJobs output succeeds).Finishing) : s.Finishing := by
  unfold TraceManager.handleJobs at h
  cases hhandler : s.handler with
  | setupJob index =>
    simp only [hhandler] at h
    split_ifs at h
    · exact h
    · exact h
    · exact h
    · exact finishing_of_goTo h rfl Or.inl (by simp)
  | waitJob index =>
    simp only [hhandler] at h
    cases hjob : s.jobs[index]? with
    | none =>
      simp only [hjob] at h
      exact finishing_of_goTo h rfl Or.inl (by simp)
    | some job =>
      simp only [hjob] at h
      split_ifs at h
      all_goals exact h
  | sleep | ended =>
    simp only [hhandler] at h
    exact h
  | startTrace | stopTrace | joinJobs =>
    simp only [hhandler] at h
    split_ifs at h
    all_goals
      first
      | exact h
      | exact finishing_of_goTo h rfl Or.inl (by simp)

theorem Closing.handleJobs (h : s.Closing) (succeeds : Bool)
    (hsetup : (s.handleJobs numberOfJobs output succeeds).SettingUp →
      (s.handleJobs numberOfJobs output succeeds).Untouched) :
    (s.handleJobs numberOfJobs output succeeds).Closing := by
  rcases jobs_handleJobs (s := s) numberOfJobs output succeeds with hjobs | ⟨hstart, index, hjobs⟩
  · refine ⟨hsetup, by rw [hjobs]; exact h.jobs, fun hnext => ?_⟩
    unfold AllClosed
    rw [hjobs]
    exact h.closed (finishing_of_handleJobs numberOfJobs output hnext)
  · refine ⟨hsetup, fun job hjob => ?_, fun hnext => ?_⟩
    · rw [hjobs] at hjob
      rcases List.mem_append.mp hjob with hjob | hjob
      · exact h.jobs job hjob
      · rw [List.mem_singleton.mp hjob]
        exact .create _
    · exact absurd hnext (hsetup hstart).not_finishing

omit [DecidableEq Q] in
/-- The threads of the jobs close files and open none. -/
theorem Closing.job (h : s.Closing) (index : ℕ) (choice : JobThread.Choice) :
    ({ s with jobs := s.jobs.modify index (JobThread.doWork choice) } :
      TraceManager Q).Closing := by
  have hmem : ∀ job ∈ s.jobs.modify index (JobThread.doWork choice),
      job ∈ s.jobs ∨ ∃ old ∈ s.jobs, job = old.doWork choice := by
    intro job hjob
    obtain ⟨k, hk⟩ := List.mem_iff_getElem?.mp hjob
    rw [List.getElem?_modify] at hk
    obtain ⟨old, hold, rfl⟩ := Option.map_eq_some_iff.mp hk
    have hin := List.mem_of_getElem? hold
    split_ifs
    · exact Or.inr ⟨old, hin, rfl⟩
    · exact Or.inl hin
  refine ⟨fun hstart => ?_, fun job hjob => ?_, fun hnext job hjob => ?_⟩
  · have huntouched := h.setup hstart
    exact ⟨huntouched.state, huntouched.summary, huntouched.handler, huntouched.quiet⟩
  · rcases hmem job hjob with hjob | ⟨old, hold, rfl⟩
    · exact h.jobs job hjob
    · exact (h.jobs old hold).doWork choice
  · rcases hmem job hjob with hjob | ⟨old, hold, rfl⟩
    · exact h.closed hnext job hjob
    · exact (h.closed hnext old hold).doWork (h.jobs old hold) choice

theorem Closing.step (h : s.Closing) {action : SessionAction Q} (hclosed : s.StoresClosed action) :
    (s.step numberOfJobs output action).Closing := by
  have hsetup := untouched_step numberOfJobs output h.setup action
  unfold TraceManager.step at hsetup ⊢
  cases action with
  | handler succeeds =>
    simp only at hsetup ⊢
    split_ifs at hsetup ⊢
    · exact h.handleJobs numberOfJobs output succeeds hsetup
    · exact h.turn hclosed hsetup
  | job index choice => exact h.job index choice
  | getState thread =>
    simp only at hsetup ⊢
    split_ifs at hsetup ⊢
    · exact ⟨hsetup, h.jobs, fun hnext => h.closed (finishing_of_goTo hnext rfl Or.inl (by simp))⟩
    · exact h
  | thread thread => exact h.turn hclosed hsetup

theorem storesClosed_of_step {action : SessionAction Q}
    (h : (s.step numberOfJobs output action).FilesClosed) : s.StoresClosed action := by
  have hstore : ∀ caller, (s.turn caller).FilesClosed →
      s.updates caller = .store .complete → s.AllClosed := by
    intro caller hnext hpc
    unfold turn at hnext
    simp only [hpc] at hnext
    exact hnext (Or.inl rfl)
  unfold StoresClosed
  unfold TraceManager.step at h
  cases action with
  | handler succeeds =>
    intro hpc
    simp only at h
    rw [if_neg (by rw [hpc]; simp)] at h
    exact hstore none h hpc
  | thread thread => exact hstore (some thread) h
  | _ => trivial

/-- An empty trace file, just opened. -/
def emptyTrace : ℕ → FileTraceSerializer :=
  fun _ => .opened "octf.trace" 4096 ⟨fun _ => 0, 0⟩

/-- The choice of a job that works without trouble. -/
def noTrouble : JobThread.Choice :=
  ⟨false, emptyTrace 0, ⟨fun _ => true, fun _ => true, true, true, true, true⟩⟩

/-- The state is asked for between the end state of the only job and its close. -/
def askBeforeClose : List (SessionAction Unit) :=
  [.handler true, .job 0 noTrouble, .handler true, .handler true] ++
    List.replicate 6 (.handler true) ++
    [.job 0 noTrouble, .job 0 noTrouble, .getState ()] ++ List.replicate 4 (.thread ())

end TraceManager

end Octf.Interface
