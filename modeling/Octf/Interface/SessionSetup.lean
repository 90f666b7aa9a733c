import Octf.Interface.TraceManager

/-! The start of a session: until the handler stores that tracing runs, or that it has failed,
the state and the summary stay as they are and no thread looks at the jobs. -/
namespace Octf.Interface
open Foundation Octf.Parser Octf.Storage

/-- The thread is outside of `setState` and does not look at the jobs. -/
def UpdatePc.Quiet (pc : UpdatePc) : Prop := pc = .idle ∨ pc = .testRunning ∨ pc = .load

namespace TraceManager

variable {Q : Type} [DecidableEq Q] {s : TraceManager Q} {caller : Option Q} {pc : UpdatePc}

@[simp] theorem handler_turn : (s.turn caller).handler = s.handler := by
  unfold turn ret
  split <;> try split_ifs
  all_goals first | rfl | (split <;> rfl)

@[simp] theorem jobs_turn : (s.turn caller).jobs = s.jobs := by
  unfold turn ret
  split <;> try split_ifs
  all_goals first | rfl | (split <;> rfl)

@[simp] theorem failed_turn : (s.turn caller).failed = s.failed := by
  unfold turn ret
  split <;> try split_ifs
  all_goals first | rfl | (split <;> rfl)

/-- A thread in its update leaves the others where they are. -/
theorem updates_turn_of_ne {other : Option Q} (h : other ≠ caller) :
    (s.turn caller).updates other = s.updates other := by
  have hgo : ∀ (s' : TraceManager Q) pc, s'.updates = s.updates →
      (s'.goTo caller pc).updates other = s.updates other := by
    intro s' pc hsame
    change Function.update s'.updates caller pc other = _
    rw [hsame, Function.update_of_ne h]
  unfold turn ret
  split <;> try split_ifs
  all_goals first | exact hgo _ _ rfl | rfl | (split <;> exact hgo _ _ rfl)

@[simp] theorem updates_goTo_self : (s.goTo caller pc).updates caller = pc := by
  unfold goTo
  exact Function.update_self caller pc s.updates

/-- The handler is creating the jobs or waiting for them to start. -/
def SettingUp (s : TraceManager Q) : Prop :=
  (∃ index, s.handler = .setupJob index) ∨ ∃ index, s.handler = .waitJob index

/-- The handler only adds jobs, and only while it sets them up. -/
theorem jobs_handleJobs (numberOfJobs : ℕ) (output : ℕ → FileTraceSerializer) (succeeds : Bool) :
    (s.handleJobs numberOfJobs output succeeds).jobs = s.jobs ∨
      (s.handleJobs numberOfJobs output succeeds).SettingUp ∧ ∃ index,
        (s.handleJobs numberOfJobs output succeeds).jobs =
          s.jobs ++ [JobThread.create (output index)] := by
  unfold handleJobs
  cases hhandler : s.handler with
  | setupJob index =>
    simp only
    split_ifs with hzero hsucceeds hmore
    · exact Or.inl rfl
    · exact Or.inr ⟨Or.inl ⟨_, rfl⟩, index, rfl⟩
    · exact Or.inr ⟨Or.inr ⟨_, rfl⟩, index, rfl⟩
    · exact Or.inl rfl
  | waitJob index =>
    cases hjob : s.jobs[index]? with
    | none =>
      simp only [hjob]
      exact Or.inl rfl
    | some job =>
      simp only [hjob]
      split_ifs
      all_goals exact Or.inl rfl
  | sleep | ended => exact Or.inl rfl
  | startTrace | stopTrace | joinJobs =>
    simp only
    split_ifs
    all_goals exact Or.inl rfl

structure Untouched (s : TraceManager Q) : Prop where
  state : s.state = .initializing
  summary : ∀ x ∈ s.summary, x.state = .INITIALIZING
  handler : s.updates none = .idle
  quiet : ∀ caller, (s.updates caller).Quiet

theorem Untouched.goTo (h : s.Untouched) (thread : Q) (hpc : pc.Quiet) :
    (s.goTo (some thread) pc).Untouched := by
  refine ⟨h.state, h.summary, ?_, fun caller => ?_⟩
  · have hne : (none : Option Q) ≠ some thread := by simp
    exact (Function.update_of_ne hne pc s.updates).trans h.handler
  · change (Function.update s.updates (some thread) pc caller).Quiet
    rw [Function.update_apply]
    split_ifs
    · exact hpc
    · exact h.quiet caller

theorem Untouched.turn (h : s.Untouched) (thread : Q) : (s.turn (some thread)).Untouched := by
  unfold TraceManager.turn
  rcases h.quiet (some thread) with hpc | hpc | hpc
  · simpa only [hpc] using h
  · have hstate : ¬ s.state = .running := by
      rw [h.state]
      simp
    simp only [hpc, if_neg hstate]
    exact h.goTo thread (Or.inr (Or.inr rfl))
  · simp only [hpc]
    have hanswer : ∀ answers, ({ s with answers := answers } : TraceManager Q).Untouched :=
      fun _ => ⟨h.state, h.summary, h.handler, h.quiet⟩
    exact (hanswer _).goTo thread (Or.inl rfl)

/-- The set-up leaves the session untouched. -/
theorem untouched_step (numberOfJobs : ℕ) (output : ℕ → FileTraceSerializer)
    (h : s.SettingUp → s.Untouched) (action : SessionAction Q) :
    (s.step numberOfJobs output action).SettingUp →
      (s.step numberOfJobs output action).Untouched := by
  cases action with
  | handler succeeds =>
    unfold TraceManager.step
    by_cases hidle : s.updates none = .idle
    · simp only [if_pos hidle]
      unfold handleJobs
      cases hhandler : s.handler with
      | setupJob index =>
        have hstart := h (Or.inl ⟨index, hhandler⟩)
        simp only
        split_ifs
        · exact fun _ => hstart
        · exact fun _ => ⟨hstart.state, hstart.summary, hstart.handler, hstart.quiet⟩
        · exact fun _ => ⟨hstart.state, hstart.summary, hstart.handler, hstart.quiet⟩
        · exact fun hnext => by simp [SettingUp, goTo, throw] at hnext
      | waitJob index =>
        have hstart := h (Or.inr ⟨index, hhandler⟩)
        cases hjob : s.jobs[index]? with
        | none =>
          simp only [hjob]
          exact fun hnext => by simp [SettingUp, goTo] at hnext
        | some job =>
          simp only [hjob]
          split_ifs
          · exact fun _ => hstart
          · exact fun _ => ⟨hstart.state, hstart.summary, hstart.handler, hstart.quiet⟩
      | startTrace | stopTrace | joinJobs =>
        simp only
        split_ifs
        all_goals exact fun hnext => by simp [SettingUp, goTo, throw, hhandler] at hnext
      | sleep | ended => exact fun hnext => by simp [SettingUp, hhandler] at hnext
    · simp only [if_neg hidle]
      intro hnext
      unfold SettingUp at hnext
      rw [handler_turn] at hnext
      exact absurd (h hnext).handler hidle
  | job index choice =>
    intro hnext
    have hstart := h hnext
    exact ⟨hstart.state, hstart.summary, hstart.handler, hstart.quiet⟩
  | getState thread =>
    unfold TraceManager.step
    simp only
    split_ifs
    · exact fun hnext => (h hnext).goTo thread (Or.inr (Or.inl rfl))
    · exact h
  | thread thread =>
    unfold TraceManager.step
    intro hnext
    unfold SettingUp at hnext
    rw [handler_turn] at hnext
    exact (h hnext).turn thread

omit [DecidableEq Q] in
theorem untouched_init : (init : TraceManager Q).Untouched :=
  ⟨rfl, fun x hx => by rw [List.mem_singleton.mp hx], rfl, fun _ => Or.inl rfl⟩

end TraceManager

end Octf.Interface
