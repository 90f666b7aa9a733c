import Octf.Interface.FilesClosed
import Octf.Interface.SessionState
import Mathlib.Data.Fintype.Option

/-! The end of a session: what the handler and the jobs keep of the order of its updates, and that
the state is right and stays once the handler has ended. -/
namespace Octf.Interface
open Foundation Octf.Parser Octf.Storage

namespace TraceManager

variable {Q : Type} [DecidableEq Q] {s : TraceManager Q} {caller : Option Q} {pc : UpdatePc}

/-! ### The steps of the handler and of the jobs -/

omit [DecidableEq Q] in
/-- The handler moves on outside of its updates. -/
theorem Orderly.moveHandler (h : s.Orderly) {next : HandlerPc}
    (hok : ({ s with handler := next } : TraceManager Q).HandlerOk) :
    ({ s with handler := next } : TraceManager Q).Orderly := by
  refine ⟨hok, h.jobs, h.known, h.started, h.writable, h.readOnly, h.complete, h.error,
    fun other => ?_, h.unfinished, h.single⟩
  have hold := h.places other
  change ({ s with handler := next } : TraceManager Q).Place other (s.updates other)
  cases hother : s.updates other <;> rw [hother] at hold <;> exact hold

/-- The handler enters an update. -/
theorem Orderly.enter (h : s.Orderly) {next : HandlerPc} {failed : Bool}
    (hfailed : s.failed = true → failed = true) (hpc : ¬ pc.Sets)
    (hplace : ({ s with handler := next, failed := failed } : TraceManager Q).Place none pc)
    (hok : (({ s with handler := next, failed := failed } : TraceManager Q).goTo none
      pc).HandlerOk) :
    (({ s with handler := next, failed := failed } : TraceManager Q).goTo none pc).Orderly := by
  have hsets : ∀ other, ((({ s with handler := next, failed := failed } : TraceManager Q).goTo none
      pc).updates other).Sets → (s.updates other).Sets := by
    intro other hset
    rw [updates_goTo] at hset
    split_ifs at hset
    · exact absurd hset hpc
    · exact hset
  refine ⟨hok, h.jobs, h.known, h.started, h.writable, h.readOnly, h.complete,
    fun herror => (h.error herror).imp_left hfailed, fun other => ?_, h.unfinished,
    fun hend hwritable a b ha hb => h.single hend hwritable a b (hsets a ha) (hsets b hb)⟩
  rw [updates_goTo]
  split_ifs with hother
  · rw [hother]
    exact hplace
  · have hold := h.places other
    change ({ s with handler := next, failed := failed } : TraceManager Q).Place other
      (s.updates other)
    cases hpc' : s.updates other <;> rw [hpc'] at hold
    case store =>
      exact ⟨hold.1.imp_right fun hrest => hrest.imp_right fun herror =>
        ⟨herror.1, herror.2.imp_left hfailed⟩, hold.2⟩
    all_goals exact hold

theorem Orderly.throw (h : s.Orderly) : s.throw.Orderly := by
  have hpc : s.throw.updates none = .store .error := updates_goTo_self
  refine h.enter (fun _ => rfl) id ⟨Or.inr (Or.inr ⟨rfl, Or.inl rfl⟩), fun _ => ⟨rfl, Or.inr rfl⟩⟩
    ⟨fun hstart => ?_, fun index hwait => ?_, fun _ => Or.inr hpc, fun _ _ => Or.inr hpc,
      fun hended => ?_, fun hended => ?_, fun hended => ?_⟩
  · rcases hstart with ⟨_, hhandler⟩ | ⟨_, hhandler⟩ <;> cases hhandler
  · cases hwait
  all_goals cases hended

omit [DecidableEq Q] in
/-- The handler moves between places after the start and before the end. -/
theorem HandlerOk.move (h : s.HandlerOk) (hstart : ¬ s.SettingUp) {next : HandlerPc}
    (hnext : next = .sleep ∨ next = .stopTrace ∨ next = .joinJobs) :
    ({ s with handler := next } : TraceManager Q).HandlerOk := by
  refine ⟨fun hnew => ?_, fun index hwait => ?_, h.failed, fun _ => h.starts hstart,
    fun hended => ?_, fun hended => ?_, fun hended => ?_⟩
  · rcases hnew with ⟨_, hhandler⟩ | ⟨_, hhandler⟩
    all_goals
      have hhandler' : next = _ := hhandler
      simp [hhandler'] at hnext
  · have hwait' : next = _ := hwait
    simp [hwait'] at hnext
  all_goals
    have hended' : next = _ := hended
    simp [hended'] at hnext

omit [DecidableEq Q] in
theorem not_settingUp (h : ∀ index, s.handler ≠ .setupJob index ∧ s.handler ≠ .waitJob index) :
    ¬ s.SettingUp := by
  rintro (⟨index, hhandler⟩ | ⟨index, hhandler⟩)
  · exact (h index).1 hhandler
  · exact (h index).2 hhandler

omit [DecidableEq Q] in
/-- Another job is created. -/
theorem Orderly.create (h : s.Orderly) (huntouched : s.Untouched) (serializer : FileTraceSerializer)
    {next : HandlerPc} (hnext : (∃ index, next = .setupJob index) ∨ next = .waitJob 0) :
    ({ s with jobs := s.jobs ++ [.create serializer], handler := next } :
      TraceManager Q).Orderly := by
  have hinit := huntouched.state
  have hstart :
      ({ s with jobs := s.jobs ++ [.create serializer], handler := next } :
        TraceManager Q).SettingUp := hnext.imp_right fun hwait => ⟨0, hwait⟩
  have hlive : ¬ s.state.Terminal := by
    rw [hinit]
    decide
  have hended : next ≠ .ended := by
    rintro rfl
    simp at hnext
  refine ⟨⟨fun _ => ⟨hinit, huntouched.summary, huntouched.handler, huntouched.quiet⟩,
    fun index hwait => ?_, h.handler.failed, fun hnot => absurd hstart hnot,
    fun hnot => absurd hnot hended, fun hnot => absurd hnot hended,
    fun hnot => absurd hnot hended⟩, fun job hjob => ?_, Or.inl hinit, fun hrunning => ?_,
    h.writable, h.readOnly, fun hstate => absurd (Or.inl hstate) hlive,
    fun hstate => absurd (Or.inr hstate) hlive, fun other => ?_, h.unfinished,
    fun hend => absurd hend hlive⟩
  · have hwait' : next = .waitJob index := hwait
    rcases hnext with ⟨_, hsetup⟩ | hzero
    · rw [hsetup] at hwait'
      cases hwait'
    · rw [hzero] at hwait'
      cases hwait'
      exact ⟨by simp, by simp⟩
  · rcases List.mem_append.mp hjob with hjob | hjob
    · exact h.jobs job hjob
    · rw [List.mem_singleton.mp hjob]
      exact .create serializer
  · have hrunning' : s.state = .running := hrunning
    rw [hinit] at hrunning'
    cases hrunning'
  · have hold := h.places other
    change ({ s with jobs := _, handler := next } : TraceManager Q).Place other (s.updates other)
    rcases huntouched.quiet other with hother | hother | hother
    all_goals
      rw [hother] at hold ⊢
      exact hold

theorem Orderly.waitJob (h : s.Orderly) {index : ℕ} (hhandler : s.handler = .waitJob index)
    (numberOfJobs : ℕ) (output : ℕ → FileTraceSerializer) (succeeds : Bool) :
    (s.handleJobs numberOfJobs output succeeds).Orderly := by
  have hstart : s.SettingUp := Or.inr ⟨index, hhandler⟩
  have huntouched := h.handler.setup hstart
  obtain ⟨hne, hwaited⟩ := h.handler.waits index hhandler
  unfold handleJobs
  cases hjob : s.jobs[index]? with
  | some job =>
    simp only [hhandler, hjob]
    split_ifs with hnot
    · exact h
    · have hnew : ({ s with handler := .waitJob (index + 1) } : TraceManager Q).SettingUp :=
        Or.inr ⟨index + 1, rfl⟩
      refine h.moveHandler ⟨fun _ => ⟨huntouched.state, huntouched.summary, huntouched.handler,
        huntouched.quiet⟩, fun next hwait => ?_, h.handler.failed, fun hnot => absurd hnew hnot,
        fun hended => ?_, fun hended => ?_, fun hended => ?_⟩
      · cases hwait
        refine ⟨hne, fun other hother => ?_⟩
        change other ∈ s.jobs.take (index + 1) at hother
        rw [List.take_add_one, hjob] at hother
        rcases List.mem_append.mp hother with hother | hother
        · exact hwaited other hother
        · rw [List.mem_singleton.mp hother]
          exact hnot
      all_goals cases hended
  | none =>
    simp only [hhandler, hjob]
    have htake : s.jobs.take index = s.jobs :=
      List.take_of_length_le (List.getElem?_eq_none_iff.mp hjob)
    rw [htake] at hwaited
    have hlive : ¬ s.state.Terminal := by
      rw [huntouched.state]
      decide
    refine h.enter id id ⟨Or.inl ⟨rfl, hne, hwaited⟩, fun hend => absurd hend hlive⟩
      ⟨fun hnew => ?_, fun next hwait => ?_, fun hfailed => ?_,
        fun _ _ => Or.inl updates_goTo_self, fun hended => ?_, fun hended => ?_,
        fun hended => ?_⟩
    · rcases hnew with ⟨_, hhandler⟩ | ⟨_, hhandler⟩ <;> cases hhandler
    · cases hwait
    · rcases h.handler.failed hfailed with herror | hstore
      · exact absurd (Or.inr herror) hlive
      · rw [huntouched.handler] at hstore
        cases hstore
    all_goals cases hended

theorem Orderly.joinJobs (h : s.Orderly) (hhandler : s.handler = .joinJobs)
    (hidle : s.updates none = .idle) (hended : ∀ job ∈ s.jobs, job.pc = .ended) :
    (({ s with handler := .ended } : TraceManager Q).goTo none .testRunning).Orderly := by
  have hstart : ¬ s.SettingUp := not_settingUp (by simp [hhandler])
  refine h.enter id id trivial ⟨fun hnew => ?_, fun index hwait => ?_, fun hfailed => ?_,
    fun _ hinit => ?_, fun _ => hended, fun _ => Or.inr ?_, fun _ hnot => ?_⟩
  · rcases hnew with ⟨_, hhandler⟩ | ⟨_, hhandler⟩ <;> cases hhandler
  · cases hwait
  · rcases h.handler.failed hfailed with herror | hstore
    · exact Or.inl herror
    · rw [hidle] at hstore
      cases hstore
  · rcases h.handler.starts hstart hinit with hstore | hstore
    all_goals
      rw [hidle] at hstore
      cases hstore
  · rw [updates_goTo_self]
    trivial
  · rw [updates_goTo_self] at hnot
    cases hnot

theorem Orderly.handleJobs (h : s.Orderly) (hidle : s.updates none = .idle) (numberOfJobs : ℕ)
    (output : ℕ → FileTraceSerializer) (succeeds : Bool) :
    (s.handleJobs numberOfJobs output succeeds).Orderly := by
  cases hhandler : s.handler with
  | waitJob index => exact h.waitJob hhandler numberOfJobs output succeeds
  | setupJob index =>
    have huntouched := h.handler.setup (Or.inl ⟨index, hhandler⟩)
    unfold TraceManager.handleJobs
    simp only [hhandler]
    split_ifs
    · exact h
    · exact h.create huntouched (output index) (Or.inl ⟨_, rfl⟩)
    · exact h.create huntouched (output index) (Or.inr rfl)
    · exact h.throw
  | startTrace =>
    have hstart : ¬ s.SettingUp := not_settingUp (by simp [hhandler])
    unfold TraceManager.handleJobs
    simp only [hhandler]
    split_ifs
    · exact h.moveHandler (h.handler.move hstart (Or.inl rfl))
    · exact h.throw
  | sleep =>
    have hstart : ¬ s.SettingUp := not_settingUp (by simp [hhandler])
    unfold TraceManager.handleJobs
    simp only [hhandler]
    exact h.moveHandler (h.handler.move hstart (Or.inr (Or.inl rfl)))
  | stopTrace =>
    have hstart : ¬ s.SettingUp := not_settingUp (by simp [hhandler])
    unfold TraceManager.handleJobs
    simp only [hhandler]
    split_ifs
    · exact h.moveHandler (h.handler.move hstart (Or.inr (Or.inr rfl)))
    · exact h.throw
  | joinJobs =>
    unfold TraceManager.handleJobs
    simp only [hhandler]
    split_ifs with hended
    · exact h.joinJobs hhandler hidle hended
    · exact h
  | ended =>
    unfold TraceManager.handleJobs
    simpa only [hhandler] using h

omit [DecidableEq Q] in
/-- The jobs advance. -/
theorem Place.advance (h : s.Place caller pc) {jobs : List JobThread}
    (hjobs : JobsAdvance s.jobs jobs) :
    ({ s with jobs := jobs } : TraceManager Q).Place caller pc := by
  cases pc
  case readJob =>
    exact ⟨h.1.advance hjobs, h.2.1.advance hjobs, fun hend =>
      ⟨(h.2.2 hend).1, (h.2.2 hend).2.advance hjobs⟩⟩
  case store =>
    refine ⟨?_, h.2⟩
    rcases h.1 with ⟨hstate, hstarted⟩ | ⟨hstate, hcomplete⟩ | ⟨hstate, hcause⟩
    · exact Or.inl ⟨hstate, hstarted.advance hjobs⟩
    · exact Or.inr (Or.inl ⟨hstate, hcomplete.advance hjobs⟩)
    · exact Or.inr (Or.inr ⟨hstate, hcause.imp_right fun herror => herror.advance hjobs⟩)
  all_goals exact h

theorem modify_ended {jobs : List JobThread} (hended : ∀ job ∈ jobs, job.pc = .ended) (index : ℕ)
    (choice : JobThread.Choice) : jobs.modify index (JobThread.doWork choice) = jobs := by
  refine List.ext_getElem? fun other => ?_
  rw [List.getElem?_modify]
  split_ifs with hindex
  · cases hjob : jobs[other]? with
    | none => rfl
    | some job =>
      have hpc := hended job (List.mem_of_getElem? hjob)
      simp [JobThread.doWork, hpc]
  · simp

omit [DecidableEq Q] in
theorem Orderly.job (h : s.Orderly) (index : ℕ) (choice : JobThread.Choice) :
    ({ s with jobs := s.jobs.modify index (JobThread.doWork choice) } :
      TraceManager Q).Orderly := by
  have hjobs := jobsAdvance_modify h.jobs index choice
  have hhandler := h.handler
  refine ⟨⟨fun hstart => ?_, fun next hwait => ⟨?_, fun job' hjob' hnot => ?_⟩, hhandler.failed,
    hhandler.starts, fun hended => ?_, hhandler.last, hhandler.stored⟩, fun job' hjob' => ?_,
    h.known, fun hrunning => (h.started hrunning).advance hjobs, h.writable, h.readOnly,
    fun hcomplete => (h.complete hcomplete).advance hjobs,
    fun herror => (h.error herror).imp_right fun hsome => hsome.advance hjobs,
    fun other => (h.places other).advance hjobs, h.unfinished, h.single⟩
  · have huntouched := hhandler.setup hstart
    exact ⟨huntouched.state, huntouched.summary, huntouched.handler, huntouched.quiet⟩
  · have hne := (hhandler.waits next hwait).1
    simpa [List.modify_eq_nil_iff] using hne
  · have htake : JobsAdvance (s.jobs.take next)
        ((s.jobs.modify index (JobThread.doWork choice)).take next) := List.forall₂_take next hjobs
    obtain ⟨job, hjob, hadvance⟩ := htake.exists_old hjob'
    exact (hhandler.waits next hwait).2 job hjob (hadvance.starts hnot)
  · have hsame := modify_ended (hhandler.joined hended) index choice
    simpa only [hsame] using hhandler.joined hended
  · obtain ⟨other, hother⟩ := List.mem_iff_getElem?.mp hjob'
    rw [List.getElem?_modify] at hother
    cases hjob : s.jobs[other]? with
    | none =>
      rw [hjob] at hother
      split_ifs at hother <;> cases hother
    | some job =>
      have hold := h.jobs job (List.mem_of_getElem? hjob)
      rw [hjob] at hother
      split_ifs at hother
      · cases hother
        exact hold.doWork choice
      · cases hother
        exact hold

theorem Orderly.step (h : s.Orderly) (numberOfJobs : ℕ) (output : ℕ → FileTraceSerializer)
    {action : SessionAction Q} (hordered : s.Ordered action) :
    (s.step numberOfJobs output action).Orderly := by
  have hsetup := untouched_step numberOfJobs output h.handler.setup action
  unfold TraceManager.step at hsetup ⊢
  cases action with
  | handler succeeds =>
    simp only at hsetup ⊢
    split_ifs at hsetup ⊢ with hidle
    · exact h.handleJobs hidle numberOfJobs output succeeds
    · exact h.turn hordered hsetup
  | job index choice => exact h.job index choice
  | getState thread =>
    simp only at hsetup ⊢
    split_ifs at hsetup ⊢ with hidle
    · exact h.goTo hsetup (by simp [hidle]) trivial (fun hsets => absurd hsets id) (by simp)
        (by simp)
    · exact h
  | thread thread => exact h.turn hordered hsetup

omit [DecidableEq Q] in
theorem orderly_init : (init : TraceManager Q).Orderly := by
  have hlive : ¬ (init : TraceManager Q).state.Terminal := by
    change ¬ TracingState.initializing.Terminal
    decide
  refine ⟨⟨fun _ => untouched_init, fun index hwait => ?_, fun hfailed => ?_, fun hstart _ => ?_,
    fun hended => ?_, fun hended => ?_, fun hended => ?_⟩, fun job hjob => ?_, Or.inl rfl,
    fun hrunning => ?_, fun _ => rfl, fun hend => absurd hend hlive,
    fun hcomplete => absurd (Or.inl hcomplete) hlive, fun herror => absurd (Or.inr herror) hlive,
    fun _ => trivial, fun _ x hx => Or.inl (untouched_init.summary x hx),
    fun hend => absurd hend hlive⟩
  · cases hwait
  · cases hfailed
  · exact absurd (Or.inl ⟨0, rfl⟩) hstart
  · cases hended
  · cases hended
  · cases hended
  · cases hjob
  · cases hrunning

/-! ### The end -/

/-- The handler thread has ended. -/
def Ended (s : TraceManager Q) : Prop := s.handler = .ended ∧ s.updates none = .idle

/-- What the state has to be in the end. -/
def outcome (s : TraceManager Q) : TracingState :=
  if s.failed = true ∨ ∃ job ∈ s.jobs, job.state = .error then .error else .complete

def Settled (s : TraceManager Q) : Prop := s.state = s.outcome ∧ s.Stored

omit [DecidableEq Q] in
theorem Orderly.settled (h : s.Orderly) (hended : s.Ended) : s.Settled := by
  have hidle := hended.2
  have hnotFailed : s.state ≠ .error → ¬ s.failed = true := by
    intro hne hfailed
    rcases h.handler.failed hfailed with herror | hstore
    · exact hne herror
    · rw [hidle] at hstore
      cases hstore
  refine ⟨?_, h.handler.stored hended.1 hidle⟩
  unfold outcome
  rcases h.handler.last hended.1 with hend | hlast
  · rcases hend with hcomplete | herror
    · have hne : s.state ≠ .error := by
        rw [hcomplete]
        decide
      rw [if_neg, hcomplete]
      rintro (hfailed | ⟨job, hjob, hbad⟩)
      · exact hnotFailed hne hfailed
      · rw [h.complete hcomplete job hjob] at hbad
        cases hbad
    · have hcause : s.failed = true ∨ ∃ job ∈ s.jobs, job.state = .error := h.error herror
      rw [if_pos hcause, herror]
  · rw [hidle] at hlast
    exact absurd hlast id

/-- After the end of the handler no thread changes the summary. -/
theorem Orderly.summary_turn (h : s.Orderly) (hended : s.Ended) :
    (s.turn caller).summary = s.summary := by
  have hstored := h.handler.stored hended.1 hended.2
  have hend : s.state.Terminal := by
    refine (h.handler.last hended.1).resolve_right fun hlast => ?_
    rw [hended.2] at hlast
    exact hlast
  have hplace := h.places caller
  unfold TraceManager.turn
  cases hpc : s.updates caller <;> rw [hpc] at hplace
  case truncateSummary state =>
    simp only [Place, if_pos hend] at hplace
    exact absurd hstored hplace.2.2
  case writeSummary state =>
    simp only [Place, if_pos hend] at hplace
    obtain ⟨x, hx, -⟩ := hstored
    rw [hplace.2.2] at hx
    cases hx
  all_goals simp only
  case readJob index found => split <;> rfl
  all_goals first | rfl | (split_ifs <;> rfl)

/-- After the end of the handler no step changes what the state has to be, nor the summary. -/
theorem Orderly.ended_step (h : s.Orderly) (numberOfJobs : ℕ) (output : ℕ → FileTraceSerializer)
    (action : SessionAction Q) (hended : s.Ended) :
    (s.step numberOfJobs output action).Ended ∧
      (s.step numberOfJobs output action).outcome = s.outcome ∧
      (s.step numberOfJobs output action).summary = s.summary := by
  unfold TraceManager.step
  cases action with
  | handler succeeds =>
    have hsame : s.handleJobs numberOfJobs output succeeds = s := by
      unfold TraceManager.handleJobs
      rw [hended.1]
    simp only [if_pos hended.2, hsame]
    exact ⟨hended, trivial, trivial⟩
  | job index choice =>
    have hsame := modify_ended (h.handler.joined hended.1) index choice
    simp only [hsame]
    exact ⟨hended, trivial, trivial⟩
  | getState thread =>
    simp only
    split_ifs
    · refine ⟨⟨hended.1, ?_⟩, rfl, rfl⟩
      rw [updates_goTo, if_neg (by simp)]
      exact hended.2
    · exact ⟨hended, rfl, rfl⟩
  | thread thread =>
    refine ⟨⟨by rw [handler_turn, hended.1], ?_⟩, ?_, h.summary_turn hended⟩
    · rw [updates_turn_of_ne (by simp), hended.2]
    · unfold outcome
      simp only [failed_turn, jobs_turn]

instance (jobs : List JobThread) (index : ℕ) (found : Found) :
    Decidable (FindsError jobs index found) :=
  decidable_of_iff (found.foundRunningState = false ∧
    (∀ job ∈ jobs.drop index, job.state.Terminal) ∧
      (found.foundErrorState = true ∨ ∃ job ∈ jobs.drop index, job.state = .error))
    ⟨fun h => ⟨h.1, h.2.1, h.2.2⟩, fun h => ⟨h.1, h.2, h.3⟩⟩

instance (state : TracingState) (s : TraceManager Q) :
    (pc : UpdatePc) → Decidable (s.Harmless state pc)
  | .idle | .testRunning | .load => .isTrue trivial
  | .readJob index found => inferInstanceAs (Decidable (_ = _ ∧ FindsError s.jobs index found))
  | .store _ => inferInstanceAs (Decidable (_ ∧ _))
  | .openSummary _ | .truncateSummary _ | .writeSummary _ | .storeError | .testError | .testComplete
  | .makeReadOnly => .isFalse id

instance (s : TraceManager Q) : Decidable s.Stored :=
  decidable_of_iff (s.summary.length = 1 ∧ ∀ x ∈ s.summary, x.state = s.state.toProto)
    ⟨fun h => by
      obtain ⟨x, hx⟩ := List.length_eq_one_iff.mp h.1
      exact ⟨x, hx, h.2 x (by rw [hx]; exact List.mem_singleton_self x)⟩,
    fun ⟨x, hx, hstate⟩ => by
      refine ⟨by rw [hx]; rfl, fun y hy => ?_⟩
      rw [hx] at hy
      rw [List.mem_singleton.mp hy, hstate]⟩

instance [Fintype Q] (caller : Option Q) (s : TraceManager Q) : Decidable (s.TurnOrdered caller) :=
  match h : s.updates caller with
  | .store state =>
    decidable_of_iff (state.Terminal → s.state ≠ .complete ∧
      (s.state = .error → s.readOnly = true) ∧
      (s.state ≠ .error → ∀ other ≠ caller, s.Harmless state (s.updates other)))
      (by simp only [TurnOrdered, h])
  | .testRunning =>
    decidable_of_iff (caller = none → s.state ≠ .running → s.Stored)
      (by simp only [TurnOrdered, h])
  | .idle | .readJob _ _ | .openSummary _ | .truncateSummary _ | .writeSummary _ | .storeError
  | .testError | .testComplete | .makeReadOnly | .load => .isTrue (by simp only [TurnOrdered, h])

instance [Fintype Q] (action : SessionAction Q) (s : TraceManager Q) :
    Decidable (s.Ordered action) :=
  match action with
  | .handler _ => inferInstanceAs (Decidable (s.TurnOrdered none))
  | .thread thread => inferInstanceAs (Decidable (s.TurnOrdered (some thread)))
  | .job _ _ | .getState _ => .isTrue trivial

/-- The start of a session of one job, up to the stored RUNNING. -/
def startedSession : List (SessionAction Unit) :=
  [.handler true, .job 0 noTrouble, .handler true, .handler true] ++
    List.replicate 6 (.handler true)

/-- The state is asked for while the job runs, and the session ends without trouble. -/
def askedSession : List (SessionAction Unit) :=
  startedSession ++ [.getState ()] ++ List.replicate 10 (.thread ()) ++
    List.replicate 3 (.handler true) ++ List.replicate 3 (.job 0 noTrouble) ++
    List.replicate 11 (.handler true)

/-- A thread that asks for the state has found the job running when starting to trace fails. -/
def failedSession : List (SessionAction Unit) :=
  startedSession ++ [.getState (), .thread (), .thread (), .handler false] ++
    List.replicate 6 (.handler true) ++ List.replicate 3 (.job 0 noTrouble) ++
    List.replicate 2 (.handler true)

end TraceManager

end Octf.Interface
