import Octf.Interface.JobStates
import Octf.Interface.SessionSetup

/-! The state of a session at its end. It is right and stays right if the threads that store it
keep out of each other's way: the first end state is stored while no other update is under way
that could store another one, and its summary is written before the handler ends. -/
namespace Octf.Interface
open Foundation Octf.Parser Octf.Storage

/-- The thread has stored a state and its `setState` is not over. -/
def UpdatePc.Sets : UpdatePc → Prop
  | .openSummary _ | .truncateSummary _ | .writeSummary _ | .storeError | .testError
  | .testComplete | .makeReadOnly => True
  | _ => False

namespace TraceManager

variable {Q : Type} [DecidableEq Q] {s : TraceManager Q} {caller : Option Q} {pc : UpdatePc}

/-- The summary file holds the state and nothing else. -/
def Stored (s : TraceManager Q) : Prop := ∃ x, s.summary = [x] ∧ x.state = s.state.toProto

/-- A thread at the place cannot spoil the end state: it has stored nothing, and if it will, then
the same error. -/
def Harmless (state : TracingState) (s : TraceManager Q) : UpdatePc → Prop
  | .idle | .testRunning | .load => True
  | .readJob index found => state = .error ∧ FindsError s.jobs index found
  | .store other => state = .error ∧ other = .error
  | _ => False

/-- The thread stores an end state only as the first one and alone, unless an error is stored over
an error whose summary is read only already; and the handler's last look finds the state in the
summary. -/
def TurnOrdered (caller : Option Q) (s : TraceManager Q) : Prop :=
  match s.updates caller with
  | .store state => state.Terminal → s.state ≠ .complete ∧ (s.state = .error → s.readOnly = true) ∧
      (s.state ≠ .error → ∀ other ≠ caller, s.Harmless state (s.updates other))
  | .testRunning => caller = none → s.state ≠ .running → s.Stored
  | _ => True

def Ordered (action : SessionAction Q) (s : TraceManager Q) : Prop :=
  match action with
  | .handler _ => s.TurnOrdered none
  | .thread thread => s.TurnOrdered (some thread)
  | _ => True

/-- What a thread at a place knows and has still to do. -/
def Place (caller : Option Q) (s : TraceManager Q) : UpdatePc → Prop
  | .idle | .testRunning => True
  | .load => caller ≠ none
  | .readJob index found =>
    Started s.jobs ∧ Reads s.jobs index found ∧
      (s.state.Terminal → s.state = .error ∧ FindsError s.jobs index found)
  | .store state =>
    (state = .running ∧ Started s.jobs ∨ state = .complete ∧ AllComplete s.jobs ∨
      state = .error ∧ (s.failed = true ∨ SomeError s.jobs)) ∧
      (s.state.Terminal → state = .error ∧ (s.state = .error ∨ caller = none))
  | .openSummary state =>
    if s.state.Terminal then state = s.state ∧ (s.state = .complete → s.readOnly = false) ∧
      (s.readOnly = false → ¬ s.Stored)
    else state = .running
  | .truncateSummary state =>
    if s.state.Terminal then state = s.state ∧ s.readOnly = false ∧ ¬ s.Stored else state = .running
  | .writeSummary state =>
    if s.state.Terminal then state = s.state ∧ s.readOnly = false ∧ s.summary = []
    else state = .running
  | .storeError => s.state = .error ∧ s.Stored
  | .testError | .testComplete => s.state.Terminal → s.Stored
  | .makeReadOnly => s.state.Terminal ∧ s.Stored

/-- Where the handler is in its last update, before the end state is stored. -/
def LastUpdate : UpdatePc → Prop
  | .testRunning => True
  | .readJob _ found => found.foundRunningState = false
  | .store state => state.Terminal
  | _ => False

/-- What the handler's place says. -/
structure HandlerOk (s : TraceManager Q) : Prop where
  setup : s.SettingUp → s.Untouched
  waits : ∀ index, s.handler = .waitJob index →
    s.jobs ≠ [] ∧ ∀ job ∈ s.jobs.take index, job.state ≠ .notStarted
  failed : s.failed = true → s.state = .error ∨ s.updates none = .store .error
  starts : ¬ s.SettingUp → s.state = .initializing →
    s.updates none = .store .running ∨ s.updates none = .store .error
  joined : s.handler = .ended → ∀ job ∈ s.jobs, job.pc = .ended
  last : s.handler = .ended → s.state.Terminal ∨ LastUpdate (s.updates none)
  stored : s.handler = .ended → s.updates none = .idle → s.Stored

structure Orderly (s : TraceManager Q) : Prop where
  handler : s.HandlerOk
  jobs : ∀ job ∈ s.jobs, job.Consistent
  known : s.state = .initializing ∨ s.state = .running ∨ s.state.Terminal
  started : s.state = .running → Started s.jobs
  writable : ¬ s.state.Terminal → s.readOnly = false
  readOnly : s.state.Terminal → s.readOnly = true → s.Stored
  complete : s.state = .complete → AllComplete s.jobs
  error : s.state = .error → s.failed = true ∨ SomeError s.jobs
  places : ∀ caller, s.Place caller (s.updates caller)
  unfinished : ¬ s.state.Terminal → ∀ x ∈ s.summary, x.state = .INITIALIZING ∨ x.state = .RUNNING
  single : s.state.Terminal → s.readOnly = false →
    ∀ a b, (s.updates a).Sets → (s.updates b).Sets → a = b

/-! ### A step that leaves the session as it is -/

theorem updates_goTo (other : Option Q) :
    (s.goTo caller pc).updates other = if other = caller then pc else s.updates other := by
  unfold goTo
  exact Function.update_apply s.updates caller pc other

theorem HandlerOk.goTo (h : s.HandlerOk)
    (hsetup : (s.goTo caller pc).SettingUp → (s.goTo caller pc).Untouched)
    (hother : caller = none → ∀ state, s.updates none ≠ .store state)
    (hlast : caller = none → s.handler = .ended → s.state.Terminal ∨ LastUpdate pc)
    (hstored : caller = none → s.handler = .ended → pc = .idle → s.Stored) :
    (s.goTo caller pc).HandlerOk := by
  have hnone : caller ≠ none → (s.goTo caller pc).updates none = s.updates none := by
    intro hcaller
    rw [updates_goTo, if_neg hcaller.symm]
  have hself : caller = none → (s.goTo caller pc).updates none = pc := by
    rintro rfl
    rw [updates_goTo, if_pos rfl]
  refine ⟨hsetup, h.waits, fun hfailed => ?_, fun hstart hinit => ?_, h.joined, fun hend => ?_,
    fun hend hidle => ?_⟩
  · by_cases hcaller : caller = none
    · rcases h.failed hfailed with herror | hstore
      · exact Or.inl herror
      · exact absurd hstore (hother hcaller .error)
    · rw [hnone hcaller]
      exact h.failed hfailed
  · by_cases hcaller : caller = none
    · rcases h.starts hstart hinit with hstore | hstore
      · exact absurd hstore (hother hcaller .running)
      · exact absurd hstore (hother hcaller .error)
    · rw [hnone hcaller]
      exact h.starts hstart hinit
  · by_cases hcaller : caller = none
    · rw [hself hcaller]
      exact hlast hcaller hend
    · rw [hnone hcaller]
      exact h.last hend
  · by_cases hcaller : caller = none
    · rw [hself hcaller] at hidle
      exact hstored hcaller hend hidle
    · rw [hnone hcaller] at hidle
      exact h.stored hend hidle

theorem Orderly.goTo (h : s.Orderly)
    (hsetup : (s.goTo caller pc).SettingUp → (s.goTo caller pc).Untouched)
    (hother : ∀ state, s.updates caller ≠ .store state) (hplace : s.Place caller pc)
    (hsets : pc.Sets → (s.updates caller).Sets)
    (hlast : caller = none → s.handler = .ended → s.state.Terminal ∨ LastUpdate pc)
    (hstored : caller = none → s.handler = .ended → pc = .idle → s.Stored) :
    (s.goTo caller pc).Orderly := by
  refine ⟨h.handler.goTo hsetup ?_ hlast hstored, h.jobs, h.known, h.started, h.writable,
    h.readOnly, h.complete, h.error, fun other => ?_, h.unfinished,
    fun hend hwritable a b ha hb => ?_⟩
  · rintro rfl
    exact hother
  · rw [updates_goTo]
    split_ifs with heq
    · rw [heq]
      exact hplace
    · exact h.places other
  · have hold : ∀ other, ((s.goTo caller pc).updates other).Sets → (s.updates other).Sets := by
      intro other hset
      rw [updates_goTo] at hset
      split_ifs at hset with heq
      · rw [heq]
        exact hsets hset
      · exact hset
    exact h.single hend hwritable a b (hold a ha) (hold b hb)

/-- The update is over. -/
theorem Orderly.ret (h : s.Orderly) (hsetup : (s.ret caller).SettingUp → (s.ret caller).Untouched)
    (hother : ∀ state, s.updates caller ≠ .store state)
    (hend : caller = none → s.handler = .ended → s.state.Terminal ∧ s.Stored) :
    (s.ret caller).Orderly := by
  refine h.goTo hsetup hother ?_ ?_ (fun hcaller hended => Or.inl (hend hcaller hended).1)
    fun hcaller hended _ => (hend hcaller hended).2
  · split_ifs with hsome
    · rintro rfl
      cases hsome
    · trivial
  · split_ifs <;> exact False.elim

theorem Orderly.testRunning (h : s.Orderly) (hpc : s.updates caller = .testRunning)
    (hordered : s.TurnOrdered caller)
    (hsetup : (s.turn caller).SettingUp → (s.turn caller).Untouched) : (s.turn caller).Orderly := by
  have hother : ∀ state, s.updates caller ≠ .store state := by simp [hpc]
  unfold turn at hsetup ⊢
  simp only [hpc] at hsetup ⊢
  split_ifs at hsetup ⊢ with hrunning
  · refine h.goTo hsetup hother ⟨h.started hrunning, .init s.jobs, fun hend => ?_⟩ False.elim
      (fun _ _ => Or.inr rfl) (by simp)
    rw [hrunning] at hend
    rcases hend with hend | hend <;> cases hend
  · refine h.ret hsetup hother fun hcaller hended => ⟨?_, ?_⟩
    · rcases h.known with hinit | hstate | hend
      · have hstart : ¬ s.SettingUp := by
          rintro (⟨_, hhandler⟩ | ⟨_, hhandler⟩)
          all_goals
            rw [hended] at hhandler
            cases hhandler
        rw [hcaller] at hother
        rcases h.handler.starts hstart hinit with hstore | hstore
        · exact absurd hstore (hother .running)
        · exact absurd hstore (hother .error)
      · exact absurd hstate hrunning
      · exact hend
    · unfold TurnOrdered at hordered
      rw [hpc] at hordered
      exact hordered hcaller hrunning

theorem Orderly.readJob (h : s.Orderly) {index : ℕ} {found : Found}
    (hpc : s.updates caller = .readJob index found)
    (hsetup : (s.turn caller).SettingUp → (s.turn caller).Untouched) : (s.turn caller).Orderly := by
  have hother : ∀ state, s.updates caller ≠ .store state := by simp [hpc]
  have hplace := h.places caller
  rw [hpc] at hplace
  obtain ⟨hstarted, hreads, herror⟩ := hplace
  have hlast : caller = none → s.handler = .ended →
      s.state.Terminal ∨ found.foundRunningState = false := by
    rintro rfl hended
    have hlast := h.handler.last hended
    rwa [hpc] at hlast
  unfold turn at hsetup ⊢
  simp only [hpc] at hsetup ⊢
  cases hjob : s.jobs[index]? with
  | some job =>
    have hmem := List.mem_of_getElem? hjob
    have hstate : job.state = .running ∨ job.state.Terminal :=
      (h.jobs job hmem).cases.resolve_left (hstarted.2 job hmem)
    simp only [hjob] at hsetup ⊢
    refine h.goTo hsetup hother ⟨hstarted, hreads.see hjob hstate, fun hend => ?_⟩ False.elim
      (fun hcaller hended => (hlast hcaller hended).imp_right fun hnot => ?_) (by simp)
    · exact ⟨(herror hend).1, (herror hend).2.see hjob⟩
    · have hconsistent := h.jobs job hmem
      unfold JobThread.Consistent at hconsistent
      rw [h.handler.joined hended job hmem] at hconsistent
      rcases hconsistent with hcomplete | hfailed
      · rw [hcomplete]
        exact hnot
      · rw [hfailed]
        exact hnot
  | none =>
    have hresult := hreads.result hjob hstarted.1
    simp only [hjob] at hsetup ⊢
    refine h.goTo hsetup hother ⟨?_, fun hend => ?_⟩ False.elim
      (fun hcaller hended => (hlast hcaller hended).imp_right fun hnot => ?_) (by simp)
    · rcases hresult with ⟨hstate, -⟩ | hcomplete | ⟨hstate, hsome⟩
      · exact Or.inl ⟨hstate, hstarted⟩
      · exact Or.inr (Or.inl hcomplete)
      · exact Or.inr (Or.inr ⟨hstate, Or.inr hsome⟩)
    · exact ⟨(herror hend).2.result hreads hjob, Or.inl (herror hend).1⟩
    · rcases hresult with ⟨-, hrunning⟩ | ⟨hstate, -⟩ | ⟨hstate, -⟩
      · rw [hnot] at hrunning
        cases hrunning
      · exact Or.inl hstate
      · exact Or.inr hstate

omit [DecidableEq Q] in
/-- A handler that has ended its last read is behind an end state when it sets a state. -/
theorem Orderly.terminal_of_sets (h : s.Orderly) (hsets : (s.updates none).Sets)
    (hended : s.handler = .ended) : s.state.Terminal := by
  rcases h.handler.last hended with hend | hlast
  · exact hend
  · cases hpc : s.updates none <;> rw [hpc] at hsets hlast
    all_goals first | exact absurd hlast id | exact absurd hsets id

theorem Orderly.openSummary (h : s.Orderly) {state : TracingState}
    (hpc : s.updates caller = .openSummary state)
    (hsetup : (s.turn caller).SettingUp → (s.turn caller).Untouched) : (s.turn caller).Orderly := by
  have hother : ∀ state, s.updates caller ≠ .store state := by simp [hpc]
  have hsets : (s.updates caller).Sets := by
    rw [hpc]
    trivial
  have hplace := h.places caller
  rw [hpc] at hplace
  have hlast : caller = none → s.handler = .ended → s.state.Terminal := by
    rintro rfl
    exact h.terminal_of_sets hsets
  unfold turn at hsetup ⊢
  simp only [hpc] at hsetup ⊢
  split_ifs at hsetup ⊢ with hreadOnly
  · have hend : s.state.Terminal := by
      by_contra hlive
      rw [h.writable hlive] at hreadOnly
      cases hreadOnly
    simp only [Place, if_pos hend] at hplace
    have herror : s.state = .error := by
      rcases hend with hcomplete | herror
      · rw [hplace.2.1 hcomplete] at hreadOnly
        cases hreadOnly
      · exact herror
    exact h.goTo hsetup hother ⟨herror, h.readOnly hend hreadOnly⟩ (fun _ => hsets)
      (fun hcaller hended => Or.inl (hlast hcaller hended)) (by simp)
  · refine h.goTo hsetup hother ?_ (fun _ => hsets)
      (fun hcaller hended => Or.inl (hlast hcaller hended)) (by simp)
    unfold Place at hplace ⊢
    split_ifs at hplace ⊢ with hend
    · have hwritable : s.readOnly = false := by simpa using hreadOnly
      exact ⟨hplace.1, hwritable, hplace.2.2 hwritable⟩
    · exact hplace

theorem Orderly.testFinal (h : s.Orderly)
    (hpc : s.updates caller = .testError ∨ s.updates caller = .testComplete)
    (hsetup : (s.turn caller).SettingUp → (s.turn caller).Untouched) : (s.turn caller).Orderly := by
  have hother : ∀ state, s.updates caller ≠ .store state := by
    rcases hpc with hpc | hpc <;> simp [hpc]
  have hsets : (s.updates caller).Sets := by
    rcases hpc with hpc | hpc <;> simp [hpc, UpdatePc.Sets]
  have hplace : s.state.Terminal → s.Stored := by
    have hplace := h.places caller
    rcases hpc with hpc | hpc <;> rwa [hpc] at hplace
  have hlast : caller = none → s.handler = .ended → s.state.Terminal := by
    rintro rfl
    exact h.terminal_of_sets hsets
  unfold turn at hsetup ⊢
  rcases hpc with hpc | hpc
  · simp only [hpc] at hsetup ⊢
    split_ifs at hsetup ⊢ with herror
    · exact h.goTo hsetup hother ⟨Or.inr herror, hplace (Or.inr herror)⟩ (fun _ => hsets)
        (fun hcaller hended => Or.inl (hlast hcaller hended)) (by simp)
    · exact h.goTo hsetup hother hplace (fun _ => hsets)
        (fun hcaller hended => Or.inl (hlast hcaller hended)) (by simp)
  · simp only [hpc] at hsetup ⊢
    split_ifs at hsetup ⊢ with hcomplete
    · exact h.goTo hsetup hother ⟨Or.inl hcomplete, hplace (Or.inl hcomplete)⟩ (fun _ => hsets)
        (fun hcaller hended => Or.inl (hlast hcaller hended)) (by simp)
    · exact h.ret hsetup hother fun hcaller hended =>
        ⟨hlast hcaller hended, hplace (hlast hcaller hended)⟩

/-! ### A step that changes the session -/

omit [DecidableEq Q] in
theorem Untouched.not_sets (h : s.Untouched) : ¬ (s.updates caller).Sets := by
  rcases h.quiet caller with hpc | hpc | hpc
  all_goals
    rw [hpc]
    exact id

omit [DecidableEq Q] in
/-- What a thread knows depends on the summary only inside `setState`, after the end. -/
theorem Place.withSummary (h : s.Place caller pc) (hfree : s.state.Terminal → ¬ pc.Sets)
    (summary : List TraceSummary) :
      ({ s with summary := summary } : TraceManager Q).Place caller pc := by
  by_cases hend : s.state.Terminal
  · have hsets := hfree hend
    cases pc
    case idle | testRunning | readJob | store | load => exact h
    all_goals exact absurd trivial hsets
  · cases pc
    case openSummary | truncateSummary | writeSummary =>
      simp only [Place, if_neg hend] at h ⊢
      exact h
    case storeError => exact absurd (Or.inr h.1) hend
    case testError | testComplete => exact fun hend' => absurd hend' hend
    case makeReadOnly => exact absurd h.1 hend
    all_goals exact h

/-- The summary file is changed by a thread whose turn it is alone. -/
theorem Orderly.setSummary (h : s.Orderly) {summary : List TraceSummary}
    (hsets : (s.updates caller).Sets) (hwritable : s.state.Terminal → s.readOnly = false)
    (hsetup : (({ s with summary := summary } : TraceManager Q).goTo caller pc).SettingUp →
      (({ s with summary := summary } : TraceManager Q).goTo caller pc).Untouched)
    (hunfinished : ¬ s.state.Terminal → ∀ x ∈ summary, x.state = .INITIALIZING ∨ x.state = .RUNNING)
    (hstored : s.state.Terminal → s.handler = .ended → s.updates none = .idle →
      ({ s with summary := summary } : TraceManager Q).Stored)
    (hplace : ({ s with summary := summary } : TraceManager Q).Place caller pc)
    (hpc : pc.Sets) : (({ s with summary := summary } : TraceManager Q).goTo caller
      pc).Orderly := by
  have hhandler := h.handler
  have halone : ∀ other ≠ caller, s.state.Terminal → ¬ (s.updates other).Sets :=
    fun other hne hend hset => hne (h.single hend (hwritable hend) other caller hset hsets)
  have hok : ({ s with summary := summary } : TraceManager Q).HandlerOk := by
    refine ⟨fun hstart => absurd hsets (hhandler.setup hstart).not_sets, hhandler.waits,
      hhandler.failed, hhandler.starts, hhandler.joined, hhandler.last, fun hended hidle => ?_⟩
    refine hstored ((hhandler.last hended).resolve_right fun hlast => ?_) hended hidle
    have hidle' : s.updates none = .idle := hidle
    rw [hidle'] at hlast
    exact hlast
  refine ⟨hok.goTo hsetup ?_ (fun hcaller hended => Or.inl ?_) ?_, h.jobs, h.known, h.started,
    h.writable, fun hend hreadOnly => ?_, h.complete, h.error, fun other => ?_, hunfinished,
    fun hend hwrite a b ha hb => ?_⟩
  · rintro rfl state hstore
    have hstore' : s.updates none = .store state := hstore
    rw [hstore'] at hsets
    exact hsets
  · subst hcaller
    exact h.terminal_of_sets hsets hended
  · rintro - - rfl
    exact absurd hpc id
  · have hreadOnly' : s.readOnly = true := hreadOnly
    rw [hwritable hend] at hreadOnly'
    cases hreadOnly'
  · rw [updates_goTo]
    split_ifs with hcaller
    · rw [hcaller]
      exact hplace
    · exact (h.places other).withSummary (halone other hcaller) summary
  · have hself : ∀ other, ((({ s with summary := summary } : TraceManager Q).goTo caller
        pc).updates other).Sets → other = caller := by
      intro other hset
      by_contra hother
      rw [updates_goTo, if_neg hother] at hset
      exact halone other hother hend hset
    rw [hself a ha, hself b hb]

theorem Orderly.truncateSummary (h : s.Orderly) {state : TracingState}
    (hpc : s.updates caller = .truncateSummary state)
    (hsetup : (s.turn caller).SettingUp → (s.turn caller).Untouched) : (s.turn caller).Orderly := by
  have hsets : (s.updates caller).Sets := by
    rw [hpc]
    trivial
  have hplace := h.places caller
  rw [hpc] at hplace
  unfold turn at hsetup ⊢
  simp only [hpc] at hsetup ⊢
  refine h.setSummary hsets (fun hend => ?_) hsetup (fun _ => by simp) (fun hend hended hidle => ?_)
    ?_ trivial
  · simp only [Place, if_pos hend] at hplace
    exact hplace.2.1
  · -- the end state is not in the file yet, so the handler waits for it
    simp only [Place, if_pos hend] at hplace
    exact absurd (h.handler.stored hended hidle) hplace.2.2
  · unfold Place at hplace ⊢
    split_ifs at hplace ⊢ with hend
    · exact ⟨hplace.1, hplace.2.1, rfl⟩
    · exact hplace

theorem Orderly.writeSummary (h : s.Orderly) {state : TracingState}
    (hpc : s.updates caller = .writeSummary state)
    (hsetup : (s.turn caller).SettingUp → (s.turn caller).Untouched) : (s.turn caller).Orderly := by
  have hsets : (s.updates caller).Sets := by
    rw [hpc]
    trivial
  have hplace := h.places caller
  rw [hpc] at hplace
  have hstored : s.state.Terminal →
      ({ s with summary := ⟨state.toProto, s.jobs.length⟩ :: s.summary } :
        TraceManager Q).Stored := by
    intro hend
    simp only [Place, if_pos hend] at hplace
    exact ⟨_, by rw [hplace.2.2], by rw [hplace.1]⟩
  unfold turn at hsetup ⊢
  simp only [hpc] at hsetup ⊢
  refine h.setSummary hsets (fun hend => ?_) hsetup (fun hlive x hx => ?_)
    (fun hend _ _ => hstored hend) hstored trivial
  · simp only [Place, if_pos hend] at hplace
    exact hplace.2.1
  · simp only [Place, if_neg hlive] at hplace
    rcases List.mem_cons.mp hx with rfl | hx
    · exact Or.inr (by rw [hplace]; rfl)
    · exact h.unfinished hlive x hx

theorem Orderly.storeError (h : s.Orderly) (hpc : s.updates caller = .storeError)
    (hsetup : (s.turn caller).SettingUp → (s.turn caller).Untouched) : (s.turn caller).Orderly := by
  have hplace := h.places caller
  rw [hpc] at hplace
  have hsame : ({ s with state := .error } : TraceManager Q) = s := by
    rw [← hplace.1]
  unfold turn at hsetup ⊢
  simp only [hpc, hsame] at hsetup ⊢
  exact h.goTo hsetup (by simp [hpc]) (fun _ => hplace.2) (fun _ => by simp [hpc, UpdatePc.Sets])
    (fun _ _ => Or.inl (Or.inr hplace.1)) (by simp)

omit [DecidableEq Q] in
theorem Orderly.protect (h : s.Orderly) (hpc : s.updates caller = .makeReadOnly) :
    ({ s with readOnly := true } : TraceManager Q).Orderly := by
  have hplace := h.places caller
  rw [hpc] at hplace
  obtain ⟨hend, hstored⟩ := hplace
  have hhandler := h.handler
  refine ⟨⟨fun hstart => ?_, hhandler.waits, hhandler.failed, hhandler.starts, hhandler.joined,
    hhandler.last, hhandler.stored⟩, h.jobs, h.known, h.started,
    fun hlive => absurd hend hlive, fun _ _ => hstored, h.complete, h.error, fun other => ?_,
    h.unfinished, fun _ hwritable => by cases hwritable⟩
  · have huntouched := hhandler.setup hstart
    exact ⟨huntouched.state, huntouched.summary, huntouched.handler, huntouched.quiet⟩
  · have hold := h.places other
    change ({ s with readOnly := true } : TraceManager Q).Place other (s.updates other)
    have halone : s.readOnly = false → (s.updates other).Sets →
      s.updates other = .makeReadOnly := by
      intro hwritable hset
      rw [h.single hend hwritable other caller hset (by simp [hpc, UpdatePc.Sets]), hpc]
    cases hother : s.updates other <;> rw [hother] at hold halone
    case openSummary state =>
      simp only [Place, if_pos hend] at hold ⊢
      refine ⟨hold.1, fun hcomplete => ?_, by simp⟩
      have hnone := halone (hold.2.1 hcomplete) trivial
      cases hnone
    case truncateSummary state =>
      simp only [Place, if_pos hend] at hold
      have hnone := halone hold.2.1 trivial
      cases hnone
    case writeSummary state =>
      simp only [Place, if_pos hend] at hold
      have hnone := halone hold.2.1 trivial
      cases hnone
    all_goals exact hold

theorem Orderly.makeReadOnly (h : s.Orderly) (hpc : s.updates caller = .makeReadOnly)
    (hsetup : (s.turn caller).SettingUp → (s.turn caller).Untouched) : (s.turn caller).Orderly := by
  have hplace := h.places caller
  rw [hpc] at hplace
  have hprotect := h.protect hpc
  unfold turn at hsetup ⊢
  simp only [hpc] at hsetup ⊢
  exact hprotect.ret hsetup (by simp [hpc]) fun _ _ => hplace

theorem Orderly.load (h : s.Orderly) (hpc : s.updates caller = .load)
    (hsetup : (s.turn caller).SettingUp → (s.turn caller).Untouched) : (s.turn caller).Orderly := by
  have hsome := h.places caller
  rw [hpc] at hsome
  have hanswer : ∀ answers, ({ s with answers := answers } : TraceManager Q).Orderly := by
    intro answers
    have hhandler := h.handler
    refine ⟨⟨fun hstart => ?_, hhandler.waits, hhandler.failed, hhandler.starts, hhandler.joined,
      hhandler.last, hhandler.stored⟩, h.jobs, h.known, h.started, h.writable, h.readOnly,
      h.complete, h.error, fun other => ?_, h.unfinished, h.single⟩
    · have huntouched := hhandler.setup hstart
      exact ⟨huntouched.state, huntouched.summary, huntouched.handler, huntouched.quiet⟩
    · have hold := h.places other
      change ({ s with answers := answers } : TraceManager Q).Place other (s.updates other)
      cases hother : s.updates other <;> rw [hother] at hold <;> exact hold
  unfold turn at hsetup ⊢
  simp only [hpc] at hsetup ⊢
  exact (hanswer _).goTo hsetup (by simp [hpc]) trivial (fun hsets => absurd hsets id)
    (fun hnone => absurd hnone hsome) (fun hnone => absurd hnone hsome)

omit [DecidableEq Q] in
/-- What a thread knows before the end does not depend on the state. -/
theorem Place.of_live (h : s.Place caller pc) (hlive : ¬ s.state.Terminal) {state : TracingState}
    (hnew : ¬ state.Terminal) : ({ s with state := state } : TraceManager Q).Place caller pc := by
  cases pc
  case readJob => exact ⟨h.1, h.2.1, fun hend => absurd hend hnew⟩
  case store => exact ⟨h.1, fun hend => absurd hend hnew⟩
  case openSummary =>
    simp only [Place, if_neg hlive] at h
    simpa only [Place, if_neg hnew] using h
  case truncateSummary =>
    simp only [Place, if_neg hlive] at h
    simpa only [Place, if_neg hnew] using h
  case writeSummary =>
    simp only [Place, if_neg hlive] at h
    simpa only [Place, if_neg hnew] using h
  case storeError => exact absurd (Or.inr h.1) hlive
  case testError => exact fun hend => absurd hend hnew
  case testComplete => exact fun hend => absurd hend hnew
  case makeReadOnly => exact absurd h.1 hlive
  all_goals exact h

omit [DecidableEq Q] in
/-- Before the end is stored, the handler that has joined the jobs is in its last update. -/
theorem HandlerOk.lastUpdate (h : s.HandlerOk) (hended : s.handler = .ended)
    (hlive : ¬ s.state.Terminal) : LastUpdate (s.updates none) :=
  (h.last hended).resolve_left hlive

/-- The parts of the handler's invariant that storing a state keeps in every case. -/
theorem HandlerOk.store (h : s.HandlerOk) {state : TracingState} (hlive : ¬ s.state.Terminal)
    (hstate : state ≠ .initializing)
    (hsetup : ({ s with state := state } : TraceManager Q).SettingUp →
      (({ s with state := state } : TraceManager Q).goTo caller (.openSummary state)).Untouched)
    (hfailed : s.updates none = .store .error → state = .error ∨ caller ≠ none)
    (hlast : s.handler = .ended → state.Terminal ∨ caller ≠ none) :
    (({ s with state := state } : TraceManager Q).goTo caller (.openSummary state)).HandlerOk := by
  have hnone : caller ≠ none → (({ s with state := state } : TraceManager Q).goTo caller
      (.openSummary state)).updates none = s.updates none := by
    intro hcaller
    rw [updates_goTo, if_neg hcaller.symm]
  refine ⟨hsetup, h.waits, fun hfail => ?_, fun _ hinit => absurd hinit hstate, h.joined,
    fun hended => ?_, fun hended hidle => ?_⟩
  · have hstore : s.updates none = .store .error :=
      (h.failed hfail).resolve_left fun herror => hlive (Or.inr herror)
    rcases hfailed hstore with herror | hcaller
    · exact Or.inl herror
    · rw [hnone hcaller]
      exact Or.inr hstore
  · rcases hlast hended with hend | hcaller
    · exact Or.inl hend
    · rw [hnone hcaller]
      exact Or.inr (h.lastUpdate hended hlive)
  · have hlast := h.lastUpdate hended hlive
    rw [updates_goTo] at hidle
    split_ifs at hidle
    have hidle' : s.updates none = .idle := hidle
    rw [hidle'] at hlast
    exact absurd hlast id

/-- Storing that tracing runs, while no end state is stored. -/
theorem Orderly.storeRunning (h : s.Orderly) (hpc : s.updates caller = .store .running)
    (hsetup : (s.turn caller).SettingUp → (s.turn caller).Untouched) : (s.turn caller).Orderly := by
  have hplace := h.places caller
  rw [hpc] at hplace
  have hlive : ¬ s.state.Terminal := by
    intro hend
    have hstate := (hplace.2 hend).1
    cases hstate
  have hnew : ¬ TracingState.running.Terminal := by decide
  have hstarted : Started s.jobs := by
    rcases hplace.1 with ⟨-, hstarted⟩ | ⟨hstate, -⟩ | ⟨hstate, -⟩
    · exact hstarted
    all_goals cases hstate
  unfold turn at hsetup ⊢
  simp only [hpc] at hsetup ⊢
  refine ⟨h.handler.store hlive (by decide) hsetup (fun hstore => Or.inr ?_)
    (fun hended => Or.inr ?_), h.jobs, Or.inr (Or.inl rfl), fun _ => hstarted,
    fun _ => h.writable hlive, fun hend => absurd hend hnew,
    fun hstate => absurd (Or.inl hstate) hnew, fun hstate => absurd (Or.inr hstate) hnew,
    fun other => ?_, fun _ => h.unfinished hlive, fun hend => absurd hend hnew⟩
  · rintro rfl
    rw [hpc] at hstore
    cases hstore
  · rintro rfl
    have hlast := h.handler.lastUpdate hended hlive
    rw [hpc] at hlast
    exact hnew hlast
  · rw [updates_goTo]
    split_ifs
    · rfl
    · exact (h.places other).of_live hlive hnew

omit [DecidableEq Q] in
theorem Harmless.not_sets {state : TracingState} (h : s.Harmless state pc) : ¬ pc.Sets := by
  cases pc
  all_goals first | exact id | exact absurd h id

omit [DecidableEq Q] in
/-- A harmless thread knows after the first end state what it has to know. -/
theorem Place.of_harmless (h : s.Place caller pc) {state : TracingState}
    (hharmless : s.Harmless state pc) :
    ({ s with state := state } : TraceManager Q).Place caller pc := by
  cases pc
  case readJob => exact ⟨h.1, h.2.1, fun _ => hharmless⟩
  case store => exact ⟨h.1, fun _ => ⟨hharmless.2, Or.inl hharmless.1⟩⟩
  case idle | testRunning | load => exact h
  all_goals exact absurd hharmless id

/-- The first end state is stored while every other thread is harmless. -/
theorem Orderly.storeFirst (h : s.Orderly) {state : TracingState}
    (hpc : s.updates caller = .store state) (hend : state.Terminal) (hlive : ¬ s.state.Terminal)
    (hothers : ∀ other ≠ caller, s.Harmless state (s.updates other))
    (hsetup : (s.turn caller).SettingUp → (s.turn caller).Untouched) : (s.turn caller).Orderly := by
  have hplace := h.places caller
  rw [hpc] at hplace
  have hwritable := h.writable hlive
  have hne : state ≠ .initializing ∧ state ≠ .running := by
    rcases hend with rfl | rfl <;> decide
  have hsets : ∀ other, ((({ s with state := state } : TraceManager Q).goTo caller
      (.openSummary state)).updates other).Sets → other = caller := by
    intro other hset
    by_contra hother
    rw [updates_goTo, if_neg hother] at hset
    exact (hothers other hother).not_sets hset
  -- what the file holds is from before the end
  have hunwritten : ¬ (({ s with state := state } : TraceManager Q).goTo caller
      (.openSummary state)).Stored := by
    rintro ⟨x, hx, hstate⟩
    have hx' : s.summary = [x] := hx
    have hstate' : x.state = state.toProto := hstate
    have hold := h.unfinished hlive x (by rw [hx']; exact List.mem_singleton_self x)
    rw [hstate'] at hold
    rcases hend with rfl | rfl <;> simp [TracingState.toProto] at hold
  unfold turn at hsetup ⊢
  simp only [hpc] at hsetup ⊢
  refine ⟨h.handler.store hlive hne.1 hsetup (fun hstore => ?_) (fun _ => Or.inl hend), h.jobs,
    Or.inr (Or.inr hend), fun hstate => absurd hstate hne.2, fun hnot => absurd hend hnot,
    fun _ hreadOnly => ?_, fun hcomplete => ?_, fun herror => ?_, fun other => ?_,
    fun hnot => absurd hend hnot, fun _ _ a b ha hb => ?_⟩
  · by_cases hcaller : caller = none
    · rw [hcaller, hstore] at hpc
      injection hpc with hstate
      exact Or.inl hstate.symm
    · exact Or.inr hcaller
  · have hreadOnly' : s.readOnly = true := hreadOnly
    rw [hwritable] at hreadOnly'
    cases hreadOnly'
  · have hstate : state = .complete := hcomplete
    rcases hplace.1 with ⟨hrunning, -⟩ | ⟨-, hall⟩ | ⟨herror, -⟩
    · exact absurd hrunning hne.2
    · exact hall
    · rw [hstate] at herror
      cases herror
  · have hstate : state = .error := herror
    rcases hplace.1 with ⟨hrunning, -⟩ | ⟨hcomplete, -⟩ | ⟨-, hcause⟩
    · exact absurd hrunning hne.2
    · rw [hstate] at hcomplete
      cases hcomplete
    · exact hcause
  · rw [updates_goTo]
    split_ifs with hother
    · exact (if_pos hend).mpr ⟨rfl, fun _ => hwritable, fun _ => hunwritten⟩
    · exact (h.places other).of_harmless (hothers other hother)
  · rw [hsets a ha, hsets b hb]

/-- An error is stored over an error. -/
theorem Orderly.storeAgain (h : s.Orderly) (hpc : s.updates caller = .store .error)
    (herror : s.state = .error) (hreadOnly : s.readOnly = true)
    (hsetup : (s.turn caller).SettingUp → (s.turn caller).Untouched) : (s.turn caller).Orderly := by
  have hsame : ({ s with state := .error } : TraceManager Q) = s := by rw [← herror]
  have hend : s.state.Terminal := Or.inr herror
  unfold turn at hsetup ⊢
  simp only [hpc, hsame] at hsetup ⊢
  refine ⟨⟨hsetup, h.handler.waits, fun _ => Or.inl herror, fun _ hinit => ?_, h.handler.joined,
    fun _ => Or.inl hend, fun hended hidle => ?_⟩, h.jobs, h.known, h.started, h.writable,
    h.readOnly, h.complete, h.error, fun other => ?_, h.unfinished, fun _ hwritable => ?_⟩
  · have hinit' : s.state = .initializing := hinit
    rw [herror] at hinit'
    cases hinit'
  · rw [updates_goTo] at hidle
    split_ifs at hidle
    exact h.handler.stored hended hidle
  · rw [updates_goTo]
    split_ifs
    · refine (if_pos hend).mpr ⟨herror.symm, fun hcomplete => ?_, fun hwritable => ?_⟩
      · have hcomplete' : s.state = .complete := hcomplete
        rw [herror] at hcomplete'
        cases hcomplete'
      · have hwritable' : s.readOnly = false := hwritable
        rw [hreadOnly] at hwritable'
        cases hwritable'
    · exact h.places other
  · have hwritable' : s.readOnly = false := hwritable
    rw [hreadOnly] at hwritable'
    cases hwritable'

theorem Orderly.store (h : s.Orderly) {state : TracingState}
    (hpc : s.updates caller = .store state) (hordered : s.TurnOrdered caller)
    (hsetup : (s.turn caller).SettingUp → (s.turn caller).Untouched) : (s.turn caller).Orderly := by
  have hplace := h.places caller
  rw [hpc] at hplace
  unfold TurnOrdered at hordered
  rw [hpc] at hordered
  by_cases hend : state.Terminal
  · obtain ⟨hcomplete, hagain, hothers⟩ := hordered hend
    by_cases hlive : s.state.Terminal
    · -- an error over an error
      have herror : s.state = .error := hlive.resolve_left hcomplete
      have hstate := (hplace.2 hlive).1
      rw [hstate] at hpc
      exact h.storeAgain hpc herror (hagain herror) hsetup
    · exact h.storeFirst hpc hend hlive (hothers fun herror => hlive (Or.inr herror)) hsetup
  · have hrunning : state = .running := by
      rcases hplace.1 with ⟨hstate, -⟩ | ⟨hstate, -⟩ | ⟨hstate, -⟩
      · exact hstate
      · exact absurd (Or.inl hstate) hend
      · exact absurd (Or.inr hstate) hend
    rw [hrunning] at hpc
    exact h.storeRunning hpc hsetup

theorem Orderly.turn (h : s.Orderly) (hordered : s.TurnOrdered caller)
    (hsetup : (s.turn caller).SettingUp → (s.turn caller).Untouched) : (s.turn caller).Orderly := by
  cases hpc : s.updates caller with
  | idle =>
    unfold TraceManager.turn
    simpa only [hpc] using h
  | testRunning => exact h.testRunning hpc hordered hsetup
  | readJob => exact h.readJob hpc hsetup
  | store => exact h.store hpc hordered hsetup
  | openSummary => exact h.openSummary hpc hsetup
  | truncateSummary => exact h.truncateSummary hpc hsetup
  | writeSummary => exact h.writeSummary hpc hsetup
  | storeError => exact h.storeError hpc hsetup
  | testError => exact h.testFinal (Or.inl hpc) hsetup
  | testComplete => exact h.testFinal (Or.inr hpc) hsetup
  | makeReadOnly => exact h.makeReadOnly hpc hsetup
  | load => exact h.load hpc hsetup

end TraceManager

end Octf.Interface
