import Octf.Plugin.Quiescence

/-! Where the pushes take their events. The queue id is reduced once, and the id that equals the
number of the queues is not: it takes the context behind the last one. -/
namespace Octf.Plugin
open Foundation

/-- What the tracing of the plugin is doing. -/
inductive Phase where
  | stopped
  | active
  /-- The manager is starting or stopping it. -/
  | changing
  deriving DecidableEq

/-- Stopped from the end of `stopTrace` to the next `startTrace`, active from the end of
`startTrace` to the next `stopTrace`. -/
def IOTracePluginC.phase (s : IOTracePluginC) : Phase :=
  if s.quiet then .stopped else if s.manager = .idle then .active else .changing

/-- What a push has done. -/
structure PushRecord where
  queue : ℕ
  /-- When it looked at the flag. -/
  phase : Phase
  /-- The jobs that were offered its event. -/
  jobs : List ℕ
  deriving DecidableEq

/-- A push takes an existing context and offers its event to one job while tracing is active, and to
none while it is stopped. -/
structure PushRecord.Routed (queueCount : ℕ) (r : PushRecord) : Prop where
  queue : r.queue < queueCount
  active : r.phase = .active → r.jobs = [r.queue]
  stopped : r.phase = .stopped → r.jobs = []

/-- The plugin, and the jobs of the trace manager that starts and stops it. -/
structure Tracing where
  plugin : IOTracePluginC
  /-- `m_jobs.size()` -/
  jobs : ℕ
  /-- The thread of the trace manager is in `setupJobs`. -/
  settingUp : Bool
  /-- The phase in which a thread has looked at the flag, in its current push. -/
  phases : Thread → Phase
  /-- The jobs a thread has offered the event of its current push. -/
  offers : Thread → List ℕ
  completed : List PushRecord

namespace Tracing

def init : Tracing := ⟨.init, 0, false, fun _ => .stopped, fun _ => [], []⟩

/-- `TraceManager::pushTrace`; without a job it returns `-EINVAL`. -/
def pushTrace (jobIndex : ℕ) (s : Tracing) : List ℕ := if jobIndex < s.jobs then [jobIndex] else []

/-- The push of a thread ends. -/
def complete (thread : Thread) (queue : ℕ) (s : Tracing) : Tracing :=
  { s with completed := s.completed ++ [⟨queue, s.phases thread, s.offers thread⟩] }

/-- The next access of a thread inside `push`. -/
def turn (thread : Thread) (s : Tracing) : Tracing :=
  let next := { s with plugin := s.plugin.turn thread }
  match s.plugin.pushes thread with
  | .outside => next
  | .raise _ => next
  | .check _ => { next with phases := Function.update s.phases thread s.plugin.phase }
  | .retreat queue => next.complete thread queue
  | .inside queue =>
    { next with offers := Function.update s.offers thread (s.offers thread ++ s.pushTrace queue) }
  | .leave queue => next.complete thread queue

/-- The jobs are created before the plugin is started, and deleted when it is started again. -/
def step (queueCount : ℕ) (action : PluginAction) (s : Tracing) : Tracing :=
  match action with
  | .push thread _ =>
    let next := { s with plugin := s.plugin.step queueCount action }
    if s.plugin.pushes thread = .outside then
      { next with offers := Function.update s.offers thread [] }
    else next
  | .thread thread => s.turn thread
  | .startTrace =>
    if s.plugin.manager = .idle ∧ s.plugin.quiet = true ∧ s.settingUp = false then
      { s with jobs := 0, settingUp := true }
    else s
  | .stopTrace => if s.settingUp then s else { s with plugin := s.plugin.step queueCount action }
  | .manager =>
    if s.settingUp then
      if s.jobs < queueCount then { s with jobs := s.jobs + 1 }
      else { s with plugin := s.plugin.step queueCount .startTrace, settingUp := false }
    else { s with plugin := s.plugin.step queueCount action }

/-- Every push touches contexts that exist, the finished ones are routed, and no counter is up
unless a push is in progress. -/
structure Routed (queueCount : ℕ) (s : Tracing) : Prop where
  touches : ∀ thread, ∀ queue ∈ (s.plugin.pushes thread).queue?, queue < queueCount
  completed : ∀ r ∈ s.completed, r.Routed queueCount
  counters : (∀ thread, s.plugin.pushes thread = .outside) →
    ∀ queue, s.plugin.tracingRefCounter queue = 0

/-- A push that begins has not the number of the queues for its id. -/
def InRange (queueCount : ℕ) (action : PluginAction) (s : Tracing) : Prop :=
  match action with
  | .push thread ioQueueId => s.plugin.pushes thread = .outside → ioQueueId ≠ queueCount
  | _ => True

instance (queueCount : ℕ) : ∀ action s, Decidable (InRange queueCount action s)
  | .push _ _, _ => inferInstanceAs (Decidable (_ → _))
  | .thread _, _ => .isTrue trivial
  | .startTrace, _ => .isTrue trivial
  | .stopTrace, _ => .isTrue trivial
  | .manager, _ => .isTrue trivial

end Tracing

/-- The access that comes after one, by the flags. -/
def PushPc.next (traceStopping : ℕ → Bool) : PushPc → PushPc
  | .outside => .outside
  | .raise queue => .check queue
  | .check queue => if traceStopping queue then .retreat queue else .inside queue
  | .retreat _ => .outside
  | .inside queue => .leave queue
  | .leave _ => .outside

/-! ### The flags while tracing is active -/

namespace IOTracePluginC

variable {s : IOTracePluginC} {queueCount : ℕ} {thread : Thread}

/-- No stop is requested for the queues below `k`. -/
def FlagsDown (k : ℕ) (s : IOTracePluginC) : Prop := ∀ q < k, s.traceStopping q = false

/-- How far the manager is with starting. -/
def Started (queueCount : ℕ) (s : IOTracePluginC) : Prop :=
  match s.manager with
  | .idle => s.quiet = false → s.FlagsDown queueCount
  | .starting k => s.FlagsDown k
  | _ => True

theorem turn_settings (s : IOTracePluginC) (thread : Thread) :
    (s.turn thread).manager = s.manager ∧ (s.turn thread).quiet = s.quiet ∧
      (s.turn thread).traceStopping = s.traceStopping := by
  unfold turn
  split
  case h_3 queue _ => split_ifs <;> exact ⟨rfl, rfl, rfl⟩
  all_goals exact ⟨rfl, rfl, rfl⟩

theorem pushes_turn (s : IOTracePluginC) (thread : Thread) :
    (s.turn thread).pushes thread = (s.pushes thread).next s.traceStopping := by
  unfold turn
  cases hpc : s.pushes thread with
  | outside => exact hpc
  | check queue =>
    simp only [PushPc.next]
    split_ifs <;> exact Function.update_self ..
  | raise queue => exact Function.update_self ..
  | retreat queue => exact Function.update_self ..
  | inside queue => exact Function.update_self ..
  | leave queue => exact Function.update_self ..

theorem pushes_turn_of_ne {t : Thread} (h : t ≠ thread) :
    (s.turn thread).pushes t = s.pushes t := by
  unfold turn
  split
  case h_1 => rfl
  case h_3 queue _ => split_ifs <;> exact Function.update_of_ne h ..
  all_goals exact Function.update_of_ne h ..

theorem pushes_managerTurn (s : IOTracePluginC) (queueCount : ℕ) :
    (s.managerTurn queueCount).pushes = s.pushes := by
  unfold managerTurn
  split
  case h_4 queue _ => split_ifs <;> rfl
  all_goals first
    | rfl
    | (split_ifs <;> rfl)

theorem Started.congr {s' : IOTracePluginC} (h : s.Started queueCount)
    (hmanager : s'.manager = s.manager) (hquiet : s'.quiet = s.quiet)
    (hflags : s'.traceStopping = s.traceStopping) : s'.Started queueCount := by
  unfold Started FlagsDown at h ⊢
  rw [hmanager, hquiet, hflags]
  exact h

theorem Started.managerTurn (h : s.Started queueCount) :
    (s.managerTurn queueCount).Started queueCount := by
  unfold IOTracePluginC.managerTurn
  unfold Started at h
  split
  · exact h
  · next queue hmanager =>
    rw [hmanager] at h
    split_ifs with hqueue
    · intro q hq
      change Function.update s.traceStopping queue false q = false
      rw [Function.update_apply]
      split_ifs with heq
      · rfl
      · exact h q (by omega)
    · exact fun _ q hq => h q (by omega)
  · split_ifs <;> trivial
  · split_ifs
    · trivial
    · trivial
    · exact fun hquiet => nomatch hquiet
  · trivial

end IOTracePluginC

/-! ### A step -/

namespace Tracing

variable {s : Tracing} {queueCount : ℕ} {thread : Thread}

/-- What a push has done at the access that it makes next. -/
def Pushing (pc : PushPc) (phase : Phase) (offers : List ℕ) : Prop :=
  match pc with
  | .outside => True
  | .raise _ => offers = []
  | .check _ => offers = []
  | .retreat _ => offers = [] ∧ phase ≠ .active
  | .inside _ => offers = [] ∧ phase ≠ .stopped
  | .leave queue => offers = [queue] ∧ phase ≠ .stopped

structure Ready (queueCount : ℕ) (s : Tracing) : Prop where
  guarded : s.plugin.Guarded queueCount
  started : s.plugin.Started queueCount
  settingUp : s.settingUp = true → s.plugin.manager = .idle ∧ s.plugin.quiet = true
  jobs_le : s.jobs ≤ queueCount
  jobs : s.plugin.quiet = false → s.jobs = queueCount
  pushing : ∀ t, Pushing (s.plugin.pushes t) (s.phases t) (s.offers t)
  completed : ∀ r ∈ s.completed, r.Routed queueCount

theorem Ready.init (queueCount : ℕ) : init.Ready queueCount where
  guarded := IOTracePluginC.Guarded.init queueCount
  started := fun hquiet => nomatch hquiet
  settingUp := fun h => nomatch h
  jobs_le := Nat.zero_le queueCount
  jobs := fun hquiet => nomatch hquiet
  pushing := fun _ => trivial
  completed := fun _ hr => nomatch hr

/-- The flag of a queue says in which phases it was looked at. -/
theorem Ready.flag (h : s.Ready queueCount) {queue : ℕ} (hqueue : queue < queueCount) :
    (s.plugin.traceStopping queue = true → s.plugin.phase ≠ .active) ∧
      (s.plugin.traceStopping queue = false → s.plugin.phase ≠ .stopped) := by
  unfold IOTracePluginC.phase
  constructor
  · intro hup
    split_ifs with hquiet hidle
    · exact fun hphase => nomatch hphase
    · have hdown := h.started
      unfold IOTracePluginC.Started at hdown
      rw [hidle] at hdown
      rw [hdown (Bool.eq_false_iff.mpr hquiet) queue hqueue] at hup
      cases hup
    · exact fun hphase => nomatch hphase
  · intro hdown
    split_ifs with hquiet hidle
    · rw [(h.guarded.quiet hquiet).1 queue hqueue] at hdown
      cases hdown
    · exact fun hphase => nomatch hphase
    · exact fun hphase => nomatch hphase

/-- A thread makes an access; what the others have done stays. -/
theorem Ready.access (h : s.Ready queueCount) {phases : Thread → Phase}
    {offers : Thread → List ℕ} {completed : List PushRecord}
    (hothers : ∀ t ≠ thread, phases t = s.phases t ∧ offers t = s.offers t)
    (hself : Pushing ((s.plugin.turn thread).pushes thread) (phases thread) (offers thread))
    (hcompleted : ∀ r ∈ completed, r.Routed queueCount) :
    Ready queueCount ⟨s.plugin.turn thread, s.jobs, s.settingUp, phases, offers, completed⟩ := by
  obtain ⟨hmanager, hquiet, hflags⟩ := s.plugin.turn_settings thread
  refine ⟨h.guarded.turn thread, h.started.congr hmanager hquiet hflags, ?_, h.jobs_le, ?_, ?_,
    hcompleted⟩
  · change s.settingUp = true →
      (s.plugin.turn thread).manager = .idle ∧ (s.plugin.turn thread).quiet = true
    rw [hmanager, hquiet]
    exact h.settingUp
  · change (s.plugin.turn thread).quiet = false → s.jobs = queueCount
    rw [hquiet]
    exact h.jobs
  · intro t
    by_cases ht : t = thread
    · exact ht ▸ hself
    · obtain ⟨hphase, hoffers⟩ := hothers t ht
      change Pushing ((s.plugin.turn thread).pushes t) (phases t) (offers t)
      rw [IOTracePluginC.pushes_turn_of_ne ht, hphase, hoffers]
      exact h.pushing t

/-- A push that ends is added to those that are routed. -/
theorem Ready.complete (h : s.Ready queueCount) {r : PushRecord} (hr : r.Routed queueCount) :
    ∀ r' ∈ s.completed ++ [r], r'.Routed queueCount := by
  intro r' hr'
  rcases List.mem_append.mp hr' with hmem | hmem
  · exact h.completed r' hmem
  · exact List.mem_singleton.mp hmem ▸ hr

theorem Ready.turn (h : s.Ready queueCount) (thread : Thread) :
    (s.turn thread).Ready queueCount := by
  have hpushing := h.pushing thread
  have hbound := h.guarded.bound thread
  have hnext := s.plugin.pushes_turn thread
  unfold Tracing.turn
  cases hpc : s.plugin.pushes thread with
  | outside =>
    rw [hpc] at hnext
    exact h.access (fun _ _ => ⟨rfl, rfl⟩) (hnext ▸ trivial) h.completed
  | raise queue =>
    rw [hpc] at hpushing hnext
    exact h.access (fun _ _ => ⟨rfl, rfl⟩) (hnext ▸ hpushing) h.completed
  | check queue =>
    rw [hpc] at hpushing hbound hnext
    obtain ⟨hup, hdown⟩ := h.flag (hbound queue rfl)
    refine h.access (fun t ht => ⟨Function.update_of_ne ht .., rfl⟩) ?_ h.completed
    rw [hnext, Function.update_self, PushPc.next]
    cases hflag : s.plugin.traceStopping queue with
    | true => exact ⟨hpushing, hup hflag⟩
    | false => exact ⟨hpushing, hdown hflag⟩
  | retreat queue =>
    rw [hpc] at hpushing hbound hnext
    obtain ⟨hoffers, hphase⟩ := hpushing
    refine h.access (fun _ _ => ⟨rfl, rfl⟩) (hnext ▸ trivial) (h.complete ?_)
    exact ⟨hbound queue rfl, fun hactive => absurd hactive hphase, fun _ => hoffers⟩
  | inside queue =>
    rw [hpc] at hpushing hbound hnext
    obtain ⟨hoffers, hphase⟩ := hpushing
    have hqueue := hbound queue rfl
    have hrunning : s.plugin.quiet = false := by
      by_contra hquiet
      exact (h.guarded.quiet (Bool.not_eq_false _ ▸ hquiet)).2 queue hqueue thread hpc
    have hjob : s.pushTrace queue = [queue] := if_pos ((h.jobs hrunning).symm ▸ hqueue)
    refine h.access (fun t ht => ⟨rfl, Function.update_of_ne ht ..⟩) ?_ h.completed
    rw [hnext, Function.update_self, hoffers, hjob]
    exact ⟨rfl, hphase⟩
  | leave queue =>
    rw [hpc] at hpushing hbound hnext
    obtain ⟨hoffers, hphase⟩ := hpushing
    refine h.access (fun _ _ => ⟨rfl, rfl⟩) (hnext ▸ trivial) (h.complete ?_)
    exact ⟨hbound queue rfl, fun _ => hoffers, fun hstopped => absurd hstopped hphase⟩

/-- The manager makes an access; the threads stay where they are. -/
theorem Ready.manage (h : s.Ready queueCount) {plugin : IOTracePluginC} {settingUp : Bool}
    (hguarded : plugin.Guarded queueCount) (hstarted : plugin.Started queueCount)
    (hpushes : plugin.pushes = s.plugin.pushes)
    (hsettingUp : settingUp = true → plugin.manager = .idle ∧ plugin.quiet = true)
    (hjobs : plugin.quiet = false → s.jobs = queueCount) :
    Ready queueCount { s with plugin := plugin, settingUp := settingUp } where
  guarded := hguarded
  started := hstarted
  settingUp := hsettingUp
  jobs_le := h.jobs_le
  jobs := hjobs
  pushing := fun t => hpushes.symm ▸ h.pushing t
  completed := h.completed

/-- An id other than the number of the queues is reduced to that of a queue. -/
theorem queueOf_lt_iff (hpos : 0 < queueCount) {ioQueueId : ℕ} :
    queueOf queueCount ioQueueId < queueCount ↔ ioQueueId ≠ queueCount := by
  unfold queueOf
  split_ifs with hlarge
  · exact ⟨fun _ => hlarge.ne', fun _ => Nat.mod_lt ioQueueId hpos⟩
  · omega

theorem quiet_managerTurn {p : IOTracePluginC} (h : (p.managerTurn queueCount).quiet = false) :
    p.quiet = false := by
  unfold IOTracePluginC.managerTurn at h
  split at h
  case h_4 queue _ =>
    split_ifs at h <;> exact h
  all_goals first
    | exact h
    | (split_ifs at h <;> exact h)

theorem Ready.step (h : s.Ready queueCount) (hpos : 0 < queueCount) {action : PluginAction}
    (haction : InRange queueCount action s) : (s.step queueCount action).Ready queueCount := by
  cases action with
  | push thread ioQueueId =>
    by_cases hpc : s.plugin.pushes thread = .outside
    · have hlands : (PluginAction.push thread ioQueueId).Lands queueCount :=
        (queueOf_lt_iff hpos).mpr (haction hpc)
      have hbegun : s.plugin.step queueCount (.push thread ioQueueId) =
          s.plugin.goTo thread (.raise (queueOf queueCount ioQueueId)) := if_pos hpc
      simp only [Tracing.step, if_pos hpc]
      refine ⟨h.guarded.step hlands, hbegun ▸ h.started.congr rfl rfl rfl, hbegun ▸ h.settingUp,
        h.jobs_le, hbegun ▸ h.jobs, fun t => ?_, h.completed⟩
      rw [hbegun]
      change Pushing (Function.update s.plugin.pushes thread _ t) (s.phases t)
        (Function.update s.offers thread [] t)
      by_cases ht : t = thread
      · rw [ht, Function.update_self, Function.update_self]
        rfl
      · rw [Function.update_of_ne ht, Function.update_of_ne ht]
        exact h.pushing t
    · have hsame : s.plugin.step queueCount (.push thread ioQueueId) = s.plugin := if_neg hpc
      simp only [Tracing.step, if_neg hpc, hsame]
      exact h
  | thread thread => exact h.turn thread
  | startTrace =>
    simp only [Tracing.step]
    split_ifs with hidle
    · obtain ⟨hmanager, hquiet, -⟩ := hidle
      exact ⟨h.guarded, h.started, fun _ => ⟨hmanager, hquiet⟩, Nat.zero_le _,
        fun hrunning => (by rw [hquiet] at hrunning; cases hrunning), h.pushing, h.completed⟩
    · exact h
  | stopTrace =>
    simp only [Tracing.step]
    split_ifs with hsettingUp
    · exact h
    · have hguarded := h.guarded.step (show PluginAction.stopTrace.Lands queueCount from trivial)
      by_cases hidle : s.plugin.manager = .idle
      · have hstopping : s.plugin.step queueCount .stopTrace =
            { s.plugin with tracingActive := false, manager := .stopping 0 } := if_pos hidle
        rw [hstopping] at hguarded ⊢
        exact h.manage hguarded trivial rfl (fun hup => absurd hup hsettingUp) h.jobs
      · have hsame : s.plugin.step queueCount .stopTrace = s.plugin := if_neg hidle
        rw [hsame]
        exact h
  | manager =>
    simp only [Tracing.step]
    split_ifs with hsettingUp hmore
    · obtain ⟨-, hquiet⟩ := h.settingUp hsettingUp
      exact ⟨h.guarded, h.started, h.settingUp, hmore,
        fun hrunning => (by rw [hquiet] at hrunning; cases hrunning), h.pushing, h.completed⟩
    · obtain ⟨hidle, -⟩ := h.settingUp hsettingUp
      have hguarded := h.guarded.step (show PluginAction.startTrace.Lands queueCount from trivial)
      have hstarting : s.plugin.step queueCount .startTrace =
          { s.plugin with tracingActive := true, manager := .starting 0, quiet := false } :=
        if_pos ⟨hidle, rfl⟩
      rw [hstarting] at hguarded ⊢
      have hall : s.jobs = queueCount := le_antisymm h.jobs_le (not_lt.mp hmore)
      exact h.manage hguarded (fun q hq => absurd hq (Nat.not_lt_zero q)) rfl
        (fun hup => nomatch hup) fun _ => hall
    · exact h.manage h.guarded.managerTurn h.started.managerTurn
        (s.plugin.pushes_managerTurn queueCount) (fun hup => absurd hup hsettingUp)
        fun hrunning => h.jobs (quiet_managerTurn hrunning)

/-! ### Runs -/

theorem Ready.routed (h : s.Ready queueCount) : s.Routed queueCount where
  touches := h.guarded.bound
  completed := h.completed
  counters := by
    intro houtside queue
    rw [h.guarded.counter queue, threadCount_eq_zero_iff]
    intro t hinFlight
    rw [houtside t] at hinFlight
    exact hinFlight

/-- All along a run the pushes are routed exactly when none begins with the number of the queues
for its id. -/
theorem routed_iff (hpos : 0 < queueCount) (actions : List PluginAction) :
    Always (step queueCount) (Routed queueCount) actions init ↔
      Meets (step queueCount) (InRange queueCount) actions init := by
  refine always_iff_meets (I := Ready queueCount) (P := Routed queueCount)
    (fun action s haction h => Ready.step h hpos haction) (fun s h => h.routed)
    (fun action s _ hrouted => ?_) (Ready.init queueCount)
  cases action with
  | push thread ioQueueId =>
    intro hpc
    have hbegun : (s.step queueCount (.push thread ioQueueId)).plugin =
        s.plugin.goTo thread (.raise (queueOf queueCount ioQueueId)) := by
      simp only [Tracing.step, if_pos hpc]
      exact if_pos hpc
    have hpushes : (s.step queueCount (.push thread ioQueueId)).plugin.pushes thread =
        .raise (queueOf queueCount ioQueueId) := by
      rw [hbegun]
      exact Function.update_self ..
    exact (queueOf_lt_iff hpos).mp (hrouted.touches thread _ (hpushes ▸ rfl))
  | thread thread => trivial
  | startTrace => trivial
  | stopTrace => trivial
  | manager => trivial

theorem seven_lt : 7 < 2 ^ 64 - 1 := by omega

/-- A push during the trace of one queue, and one behind it, with a large id. -/
def pushTwice : List PluginAction :=
  let thread : Thread := ⟨7, seven_lt⟩
  [.startTrace, .manager, .manager, .manager, .manager, .push thread 5, .thread thread,
    .thread thread, .thread thread, .thread thread, .stopTrace, .manager, .manager, .manager,
    .manager, .push thread 0, .thread thread, .thread thread, .thread thread]

theorem routed_iff_twice :
    Routed 1 (run (step 1) pushTwice init) ∧ (run (step 1) pushTwice init).completed =
      [⟨0, .active, [0]⟩, ⟨0, .stopped, []⟩] := by
  have hrouted := (routed_iff (show 0 < 1 by decide) pushTwice).mpr (by decide +kernel)
  exact ⟨hrouted.run, by decide +kernel⟩

/-- The id one of a plugin with one queue takes the context behind it. -/
theorem not_routed_count :
    ¬ Routed 1 (run (step 1) [.push ⟨7, seven_lt⟩ 1, .thread ⟨7, seven_lt⟩] init) := by
  intro h
  exact absurd (h.touches ⟨7, seven_lt⟩ 1 (by decide +kernel)) (by decide)

end Tracing

end Octf.Plugin
