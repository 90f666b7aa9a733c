import Octf.Interface.TraceManager
import Mathlib.Data.List.Forall2

/-! What the states of the jobs say and how long it stays true: a job that has finished keeps its
state, and a job that has started is never again one that has not. -/
namespace Octf.Interface

/-- The end state of a job or of a session. -/
def TracingState.Terminal (state : TracingState) : Prop := state = .complete ∨ state = .error

instance (state : TracingState) : Decidable state.Terminal :=
  inferInstanceAs (Decidable (_ ∨ _))

namespace JobThread

/-- The state belongs to the place of the thread. -/
def Consistent (job : JobThread) : Prop :=
  match job.pc with
  | .start => job.state = .notStarted
  | .consumeTraces => job.state = .running
  | .publish endState => job.state = .running ∧ endState.Terminal
  | .close | .ended => job.state.Terminal

theorem Consistent.create (serializer : Octf.Storage.FileTraceSerializer) :
    (create serializer).Consistent := rfl

theorem Consistent.doWork {job : JobThread} (h : job.Consistent) (choice : Choice) :
    (job.doWork choice).Consistent := by
  unfold Consistent at h
  unfold JobThread.doWork
  cases hpc : job.pc with
  | start => rfl
  | consumeTraces =>
    rw [hpc] at h
    refine ⟨h, ?_⟩
    split_ifs
    · exact Or.inr rfl
    · exact Or.inl rfl
  | publish endState =>
    rw [hpc] at h
    exact h.2
  | close =>
    rw [hpc] at h
    exact h
  | ended =>
    rw [hpc] at h
    simpa only [Consistent, hpc] using h

theorem Consistent.cases {job : JobThread} (h : job.Consistent) :
    job.state = .notStarted ∨ job.state = .running ∨ job.state.Terminal := by
  unfold Consistent at h
  cases hpc : job.pc <;> rw [hpc] at h
  · exact Or.inl h
  · exact Or.inr (Or.inl h)
  · exact Or.inr (Or.inl h.1)
  · exact Or.inr (Or.inr h)
  · exact Or.inr (Or.inr h)

/-- How the state of a job may change. -/
structure Advance (old new : JobThread) : Prop where
  keeps : old.state.Terminal → new.state = old.state
  starts : new.state = .notStarted → old.state = .notStarted

theorem Advance.refl (job : JobThread) : Advance job job := ⟨fun _ => rfl, id⟩

theorem Consistent.advance {job : JobThread} (h : job.Consistent) (choice : Choice) :
    Advance job (job.doWork choice) := by
  unfold Consistent at h
  unfold JobThread.doWork
  cases hpc : job.pc with
  | start =>
    rw [hpc] at h
    exact ⟨by simp [h, TracingState.Terminal], by simp⟩
  | publish endState =>
    rw [hpc] at h
    refine ⟨by simp [h.1, TracingState.Terminal], fun hnot => ?_⟩
    rcases h.2 with hend | hend <;> simp [hend] at hnot
  | consumeTraces | close | ended => exact ⟨fun _ => rfl, id⟩

end JobThread

/-! ### Lists of jobs -/

section Jobs

variable {jobs jobs' : List JobThread} {index : ℕ} {found : Found}

/-- There are jobs and all of them have started. -/
def Started (jobs : List JobThread) : Prop := jobs ≠ [] ∧ ∀ job ∈ jobs, job.state ≠ .notStarted

def AllComplete (jobs : List JobThread) : Prop := ∀ job ∈ jobs, job.state = .complete

def SomeError (jobs : List JobThread) : Prop := ∃ job ∈ jobs, job.state = .error

/-- What a thread that has read the jobs below an index knows. -/
structure Reads (jobs : List JobThread) (index : ℕ) (found : Found) : Prop where
  finished : found.allFinished = !found.foundRunningState
  error : found.foundErrorState = true → SomeError jobs
  complete : found.foundRunningState = false → found.foundErrorState = false →
    AllComplete (jobs.take index)

/-- The thread can find nothing but an error. -/
structure FindsError (jobs : List JobThread) (index : ℕ) (found : Found) : Prop where
  running : found.foundRunningState = false
  ended : ∀ job ∈ jobs.drop index, job.state.Terminal
  error : found.foundErrorState = true ∨ SomeError (jobs.drop index)

abbrev JobsAdvance (jobs jobs' : List JobThread) : Prop := List.Forall₂ JobThread.Advance jobs jobs'

theorem JobsAdvance.exists_old (h : JobsAdvance jobs jobs') {job' : JobThread}
    (hjob : job' ∈ jobs') : ∃ job ∈ jobs, job.Advance job' := by
  induction h with
  | nil => cases hjob
  | cons hhead _ ih =>
    rcases List.mem_cons.mp hjob with rfl | hjob
    · exact ⟨_, List.mem_cons_self, hhead⟩
    · obtain ⟨job, hmem, hadvance⟩ := ih hjob
      exact ⟨job, List.mem_cons_of_mem _ hmem, hadvance⟩

theorem JobsAdvance.exists_new (h : JobsAdvance jobs jobs') {job : JobThread}
    (hjob : job ∈ jobs) : ∃ job' ∈ jobs', job.Advance job' := by
  induction h with
  | nil => cases hjob
  | cons hhead _ ih =>
    rcases List.mem_cons.mp hjob with rfl | hjob
    · exact ⟨_, List.mem_cons_self, hhead⟩
    · obtain ⟨job', hmem, hadvance⟩ := ih hjob
      exact ⟨job', List.mem_cons_of_mem _ hmem, hadvance⟩

theorem jobsAdvance_modify (hjobs : ∀ job ∈ jobs, job.Consistent) (index : ℕ)
    (choice : JobThread.Choice) :
    JobsAdvance jobs (jobs.modify index (JobThread.doWork choice)) := by
  induction jobs generalizing index with
  | nil => simp
  | cons job jobs ih =>
    have hrest : ∀ job ∈ jobs, job.Consistent := fun job hjob =>
      hjobs job (List.mem_cons_of_mem _ hjob)
    cases index with
    | zero =>
      rw [List.modify_zero_cons]
      refine List.Forall₂.cons ((hjobs job List.mem_cons_self).advance choice) ?_
      exact List.forall₂_same.mpr fun job _ => .refl job
    | succ index =>
      rw [List.modify_succ_cons]
      exact List.Forall₂.cons (.refl job) (ih hrest index)

theorem AllComplete.advance (h : AllComplete jobs) (hjobs : JobsAdvance jobs jobs') :
    AllComplete jobs' := by
  intro job' hjob'
  obtain ⟨job, hjob, hadvance⟩ := hjobs.exists_old hjob'
  rw [hadvance.keeps (Or.inl (h job hjob)), h job hjob]

theorem SomeError.advance (h : SomeError jobs) (hjobs : JobsAdvance jobs jobs') :
    SomeError jobs' := by
  obtain ⟨job, hjob, herror⟩ := h
  obtain ⟨job', hjob', hadvance⟩ := hjobs.exists_new hjob
  exact ⟨job', hjob', by rw [hadvance.keeps (Or.inr herror), herror]⟩

theorem Started.advance (h : Started jobs) (hjobs : JobsAdvance jobs jobs') : Started jobs' := by
  refine ⟨fun hnil => ?_, fun job' hjob' hnot => ?_⟩
  · rw [hnil] at hjobs
    exact h.1 (List.forall₂_nil_right_iff.mp hjobs)
  · obtain ⟨job, hjob, hadvance⟩ := hjobs.exists_old hjob'
    exact h.2 job hjob (hadvance.starts hnot)

theorem Reads.advance (h : Reads jobs index found) (hjobs : JobsAdvance jobs jobs') :
    Reads jobs' index found where
  finished := h.finished
  error herror := (h.error herror).advance hjobs
  complete hrunning herror := (h.complete hrunning herror).advance (List.forall₂_take index hjobs)

theorem FindsError.advance (h : FindsError jobs index found) (hjobs : JobsAdvance jobs jobs') :
    FindsError jobs' index found where
  running := h.running
  ended job' hjob' := by
    have hdrop : JobsAdvance (jobs.drop index) (jobs'.drop index) := List.forall₂_drop index hjobs
    obtain ⟨job, hjob, hadvance⟩ := hdrop.exists_old hjob'
    rw [hadvance.keeps (h.ended job hjob)]
    exact h.ended job hjob
  error := h.error.imp_right fun herror => herror.advance (List.forall₂_drop index hjobs)

theorem Reads.init (jobs : List JobThread) : Reads jobs 0 .init where
  finished := rfl
  error h := by cases h
  complete _ _ job hjob := by simp at hjob

/-- Another job is read. -/
theorem Reads.see (h : Reads jobs index found) {job : JobThread} (hjob : jobs[index]? = some job)
    (hstate : job.state = .running ∨ job.state.Terminal) :
    Reads jobs (index + 1) (found.see job.state) := by
  have hmem := List.mem_of_getElem? hjob
  have htake : jobs.take (index + 1) = jobs.take index ++ [job] := by
    rw [List.take_add_one, hjob]
    rfl
  rcases hstate with hrunning | hcomplete | herror
  · rw [hrunning]
    exact ⟨rfl, h.error, fun h => by cases h⟩
  · rw [hcomplete]
    refine ⟨h.finished, h.error, fun hrunning herror => ?_⟩
    rw [htake]
    intro other hother
    rcases List.mem_append.mp hother with hother | hother
    · exact h.complete hrunning herror other hother
    · rw [List.mem_singleton.mp hother, hcomplete]
  · rw [herror]
    exact ⟨h.finished, fun _ => ⟨job, hmem, herror⟩, fun _ h => by cases h⟩

theorem FindsError.see (h : FindsError jobs index found) {job : JobThread}
    (hjob : jobs[index]? = some job) : FindsError jobs (index + 1) (found.see job.state) := by
  have hdrop : jobs.drop index = job :: jobs.drop (index + 1) := by
    obtain ⟨hlt, rfl⟩ := List.getElem?_eq_some_iff.mp hjob
    exact List.drop_eq_getElem_cons hlt
  have hended := h.ended
  have herror := h.error
  rw [hdrop] at hended herror
  have hrest : ∀ job ∈ jobs.drop (index + 1), job.state.Terminal :=
    fun other hother => hended other (List.mem_cons_of_mem _ hother)
  rcases hended job List.mem_cons_self with hcomplete | hfailed
  · rw [hcomplete]
    refine ⟨h.running, hrest, herror.imp_right ?_⟩
    rintro ⟨other, hother, hbad⟩
    rcases List.mem_cons.mp hother with rfl | hother
    · rw [hcomplete] at hbad
      cases hbad
    · exact ⟨other, hother, hbad⟩
  · rw [hfailed]
    exact ⟨h.running, hrest, Or.inl rfl⟩

/-- What the thread computes from what it has read of all jobs. -/
theorem Reads.result (h : Reads jobs index found) (hend : jobs[index]? = none)
    (hjobs : jobs ≠ []) :
    found.result jobs.length = .running ∧ found.foundRunningState = true ∨
      found.result jobs.length = .complete ∧ AllComplete jobs ∨
      found.result jobs.length = .error ∧ SomeError jobs := by
  have htake : jobs.take index = jobs := List.take_of_length_le (List.getElem?_eq_none_iff.mp hend)
  have hfinished := h.finished
  have hpos : 0 < jobs.length := List.length_pos_of_ne_nil hjobs
  unfold Found.result
  cases hrunning : found.foundRunningState with
  | true => exact Or.inl ⟨rfl, rfl⟩
  | false =>
    rw [hrunning] at hfinished
    have hall : found.allFinished = true := hfinished
    right
    cases herror : found.foundErrorState with
    | true => exact Or.inr ⟨by simp [hall], h.error herror⟩
    | false =>
      refine Or.inl ⟨by simp [hall, hpos], ?_⟩
      have hcomplete := h.complete hrunning herror
      rwa [htake] at hcomplete

theorem FindsError.result (h : FindsError jobs index found) (hreads : Reads jobs index found)
    (hend : jobs[index]? = none) : found.result jobs.length = .error := by
  have hdrop : jobs.drop index = [] := List.drop_eq_nil_iff.mpr (List.getElem?_eq_none_iff.mp hend)
  have hall : found.allFinished = true := by
    rw [hreads.finished, h.running]
    rfl
  have herror : found.foundErrorState = true := by
    rcases h.error with herror | ⟨job, hjob, -⟩
    · exact herror
    · rw [hdrop] at hjob
      cases hjob
  simp [Found.result, h.running, hall, herror]

end Jobs

end Octf.Interface
