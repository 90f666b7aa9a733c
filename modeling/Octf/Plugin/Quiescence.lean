import Octf.Foundation.ThreadCount
import Octf.Plugin.IOTracePluginC

/-! The counters count the threads in flight, and a counter at zero behind a raised flag keeps
every thread out. -/
namespace Octf.Plugin
open Foundation

/-- A thread is counted for a queue. -/
def PushPc.InFlight (queue : ℕ) : PushPc → Prop
  | .check q | .retreat q | .inside q | .leave q => q = queue
  | _ => False

/-- The queue of a push. -/
def PushPc.queue? : PushPc → Option ℕ
  | .outside => none
  | .raise q | .check q | .retreat q | .inside q | .leave q => some q

/-- The queue id of a push lies below the queue count. -/
def PluginAction.QueueBelow (queueCount : ℕ) : PluginAction → Prop
  | .push _ ioQueueId => ioQueueId < queueCount
  | _ => True

/-- The queue context that a push takes. -/
def queueOf (queueCount ioQueueId : ℕ) : ℕ :=
  if queueCount < ioQueueId then ioQueueId % queueCount else ioQueueId

/-- The queue context of a push exists. -/
def PluginAction.Lands (queueCount : ℕ) : PluginAction → Prop
  | .push _ ioQueueId => queueOf queueCount ioQueueId < queueCount
  | _ => True

theorem PluginAction.QueueBelow.lands {queueCount : ℕ} {action : PluginAction}
    (h : action.QueueBelow queueCount) : action.Lands queueCount := by
  cases action with
  | push thread ioQueueId =>
    have hqueue : ioQueueId < queueCount := h
    change queueOf queueCount ioQueueId < queueCount
    rw [queueOf, if_neg hqueue.not_gt]
    exact hqueue
  | thread thread => trivial
  | startTrace => trivial
  | stopTrace => trivial
  | manager => trivial

namespace IOTracePluginC

variable {s : IOTracePluginC} {queueCount : ℕ} {thread : Thread}

/-- Stopping is requested for the queues below `k`. -/
def FlagsUp (k : ℕ) (s : IOTracePluginC) : Prop := ∀ q < k, s.traceStopping q = true

/-- No thread is inside a push for a queue below `k`. -/
def Empty (k : ℕ) (s : IOTracePluginC) : Prop := ∀ q < k, ∀ t, s.pushes t ≠ .inside q

/-- How far the manager is with stopping. -/
def Progress (queueCount : ℕ) (s : IOTracePluginC) : Prop :=
  match s.manager with
  | .idle => True
  | .starting _ => s.quiet = false
  | .stopping k => s.FlagsUp k
  | .polling k => s.FlagsUp queueCount ∧ s.Empty k
  | .sleeping => s.FlagsUp queueCount

structure Guarded (queueCount : ℕ) (s : IOTracePluginC) : Prop where
  counter : ∀ q, s.tracingRefCounter q = threadCount s.pushes (PushPc.InFlight q)
  bound : ∀ t, ∀ q ∈ (s.pushes t).queue?, q < queueCount
  progress : s.Progress queueCount
  quiet : s.quiet → s.FlagsUp queueCount ∧ s.Empty queueCount

theorem threadCount_lt (pc : Thread → PushPc) (kind : PushPc → Prop) :
    threadCount pc kind < 2 ^ 64 := by
  have hle : threadCount pc kind ≤ Nat.card Thread := threadCount_le
  rw [Nat.card_fin] at hle
  omega

theorem Guarded.init (queueCount : ℕ) : IOTracePluginC.init.Guarded queueCount where
  counter q := by
    refine (threadCount_eq_zero_iff.mpr fun t => ?_).symm
    exact id
  bound t q hq := by cases hq
  progress := trivial
  quiet _ := ⟨fun _ _ => rfl, fun _ _ _ h => by cases h⟩

/-! ### A thread -/

theorem Empty.update {k : ℕ} (h : s.Empty k) {pc : PushPc} (hpc : ∀ q < k, pc ≠ .inside q)
    {q : ℕ} (hq : q < k) (t : Thread) : Function.update s.pushes thread pc t ≠ .inside q := by
  rw [Function.update_apply]
  split_ifs
  · exact hpc q hq
  · exact h q hq t

/-- A thread makes an access and the counters follow it. Only a queue that is not stopping lets
it in. -/
theorem Guarded.move (h : s.Guarded queueCount) {pc : PushPc} {counter : ℕ → ℕ}
    (hcounter : ∀ q, counter q = threadCount (Function.update s.pushes thread pc)
      (PushPc.InFlight q))
    (hbound : ∀ q ∈ pc.queue?, q < queueCount)
    (hinside : ∀ q, pc = .inside q → s.traceStopping q = false) :
    (({ s with tracingRefCounter := counter } : IOTracePluginC).goTo thread pc).Guarded
      queueCount := by
  have hempty : ∀ {k}, s.FlagsUp queueCount → s.Empty k →
      ∀ q < k, ∀ t, Function.update s.pushes thread pc t ≠ .inside q := by
    intro k hflags hk q hq t
    refine hk.update (fun q' _ hpc => ?_) hq t
    have hflag := hflags q' (hbound q' (by rw [hpc]; rfl))
    rw [hinside q' hpc] at hflag
    cases hflag
  refine ⟨hcounter, fun t q hq => ?_, ?_, fun hquiet => ?_⟩
  · change q ∈ (Function.update s.pushes thread pc t).queue? at hq
    rw [Function.update_apply] at hq
    split_ifs at hq
    · exact hbound q hq
    · exact h.bound t q hq
  · have hprogress := h.progress
    unfold Progress at hprogress ⊢
    change match s.manager with
      | .idle => True
      | .starting _ => s.quiet = false
      | .stopping k => s.FlagsUp k
      | .polling k => s.FlagsUp queueCount ∧ _
      | .sleeping => s.FlagsUp queueCount
    split at hprogress
    · trivial
    · exact hprogress
    · exact hprogress
    · exact ⟨hprogress.1, hempty hprogress.1 hprogress.2⟩
    · exact hprogress
  · obtain ⟨hflags, hnone⟩ := h.quiet hquiet
    exact ⟨hflags, hempty hflags hnone⟩

theorem counter_same (h : s.Guarded queueCount) {pc : PushPc}
    (hkind : ∀ q, pc.InFlight q ↔ (s.pushes thread).InFlight q) (q : ℕ) :
    s.tracingRefCounter q = threadCount (Function.update s.pushes thread pc)
      (PushPc.InFlight q) := by
  rw [h.counter q, threadCount_update_same (hkind q)]

/-- A thread that raises the counter of its queue. -/
theorem counter_enter (h : s.Guarded queueCount) {queue : ℕ}
    (hpc : s.pushes thread = .raise queue) (q : ℕ) :
    (s.incCounter queue).tracingRefCounter q =
      threadCount (Function.update s.pushes thread (.check queue)) (PushPc.InFlight q) := by
  change Function.update s.tracingRefCounter queue _ q = _
  by_cases hq : q = queue
  · have hcount := threadCount_update_enter (t := thread) (a := PushPc.check queue)
      (show PushPc.InFlight queue (.check queue) from rfl)
      (show ¬ PushPc.InFlight queue (s.pushes thread) by rw [hpc]; exact id)
    have hlt := threadCount_lt (Function.update s.pushes thread (.check queue))
      (PushPc.InFlight queue)
    rw [hq, Function.update_self, h.counter queue, hcount, add64_of_lt (by omega)]
  · rw [Function.update_of_ne hq, h.counter q, threadCount_update_same]
    rw [hpc]
    exact ⟨fun heq => absurd heq.symm hq, fun hfalse => hfalse.elim⟩

/-- A thread that lowers the counter of its queue. -/
theorem counter_leave (h : s.Guarded queueCount) {queue : ℕ}
    (hin : ∀ q, (s.pushes thread).InFlight q ↔ queue = q) (q : ℕ) :
    (s.decCounter queue).tracingRefCounter q =
      threadCount (Function.update s.pushes thread .outside) (PushPc.InFlight q) := by
  change Function.update s.tracingRefCounter queue _ q = _
  by_cases hq : q = queue
  · have hcount := threadCount_update_leave (t := thread) (a := PushPc.outside)
      (show ¬ PushPc.InFlight queue .outside from id) ((hin queue).mpr rfl)
    have hlt := threadCount_lt s.pushes (PushPc.InFlight queue)
    rw [hq, Function.update_self, h.counter queue, sub64_of_le (by omega) hlt]
    omega
  · rw [Function.update_of_ne hq, h.counter q, threadCount_update_same]
    rw [hin q]
    exact ⟨fun hfalse => hfalse.elim, fun heq => absurd heq.symm hq⟩

theorem Guarded.turn (h : s.Guarded queueCount) (thread : Thread) :
    (s.turn thread).Guarded queueCount := by
  have hbound := h.bound thread
  unfold IOTracePluginC.turn
  split
  · exact h
  · next queue hpc =>
    rw [hpc] at hbound
    exact h.move (counter_enter h hpc) hbound fun q hq => (by cases hq)
  · next queue hpc =>
    rw [hpc] at hbound
    split_ifs with hflag
    · exact h.move (counter_same h fun q => by rw [hpc]; rfl) hbound fun q hq => (by cases hq)
    · refine h.move (counter_same h fun q => by rw [hpc]; rfl) hbound fun q hq => ?_
      cases hq
      simpa using hflag
  · next queue hpc =>
    exact h.move (counter_leave h fun q => by rw [hpc]; rfl) (fun q hq => by cases hq)
      fun q hq => by cases hq
  · next queue hpc =>
    rw [hpc] at hbound
    exact h.move (counter_same h fun q => by rw [hpc]; rfl) hbound fun q hq => (by cases hq)
  · next queue hpc =>
    exact h.move (counter_leave h fun q => by rw [hpc]; rfl) (fun q hq => by cases hq)
      fun q hq => by cases hq

/-! ### The manager -/

/-- A queue is empty when its counter is found to be zero. -/
theorem Guarded.empty_succ (h : s.Guarded queueCount) {k : ℕ} (hk : s.Empty k)
    (hzero : s.tracingRefCounter k = 0) : s.Empty (k + 1) := by
  intro q hq t hinside
  rcases Nat.lt_succ_iff_lt_or_eq.mp hq with hlt | rfl
  · exact hk q hlt t hinside
  · rw [h.counter q, threadCount_eq_zero_iff] at hzero
    refine hzero t ?_
    rw [hinside]
    exact rfl

theorem FlagsUp.raise {k : ℕ} (h : s.FlagsUp k) (queue : ℕ) :
    (s.setStopping queue true).FlagsUp k := by
  intro q hq
  change Function.update s.traceStopping queue true q = true
  rw [Function.update_apply]
  split_ifs
  · rfl
  · exact h q hq

theorem Guarded.managerTurn (h : s.Guarded queueCount) :
    (s.managerTurn queueCount).Guarded queueCount := by
  have hprogress := h.progress
  unfold IOTracePluginC.managerTurn
  unfold Progress at hprogress
  split
  · exact h
  · next queue hmanager =>
    rw [hmanager] at hprogress
    split_ifs
    · exact ⟨h.counter, h.bound, hprogress, fun hquiet => by
        rw [show s.quiet = true from hquiet] at hprogress
        cases hprogress⟩
    · exact ⟨h.counter, h.bound, trivial, h.quiet⟩
  · next queue hmanager =>
    rw [hmanager] at hprogress
    split_ifs with hqueue
    · refine ⟨h.counter, h.bound, fun q hq => ?_, fun hquiet => ?_⟩
      · change Function.update s.traceStopping queue true q = true
        rw [Function.update_apply]
        split_ifs with heq
        · rfl
        · exact hprogress q (by omega)
      · obtain ⟨hflags, hempty⟩ := h.quiet hquiet
        exact ⟨hflags.raise queue, hempty⟩
    · refine ⟨h.counter, h.bound, ⟨fun q hq => hprogress q (by omega), fun q hq => ?_⟩, h.quiet⟩
      exact absurd hq (Nat.not_lt_zero q)
  · next queue hmanager =>
    rw [hmanager] at hprogress
    obtain ⟨hflags, hempty⟩ := hprogress
    split_ifs with hqueue hcounter
    · exact ⟨h.counter, h.bound, hflags, h.quiet⟩
    · exact ⟨h.counter, h.bound, ⟨hflags, h.empty_succ hempty (not_not.mp hcounter)⟩, h.quiet⟩
    · exact ⟨h.counter, h.bound, trivial, fun _ => ⟨hflags, fun q hq => hempty q (by omega)⟩⟩
  · next hmanager =>
    rw [hmanager] at hprogress
    exact ⟨h.counter, h.bound, ⟨hprogress, fun q hq => absurd hq (Nat.not_lt_zero q)⟩, h.quiet⟩

/-! ### Runs -/

theorem Guarded.step (h : s.Guarded queueCount) {action : PluginAction}
    (haction : action.Lands queueCount) : (s.step queueCount action).Guarded queueCount := by
  cases action with
  | push thread ioQueueId =>
    simp only [IOTracePluginC.step]
    by_cases hpc : s.pushes thread = .outside
    · rw [if_pos hpc]
      refine h.move (counter_same h fun q => by rw [hpc]; rfl) (fun q hq => ?_)
        fun q hq => (by cases hq)
      cases hq
      exact haction
    · rw [if_neg hpc]
      exact h
  | thread thread => exact h.turn thread
  | startTrace =>
    simp only [IOTracePluginC.step]
    split_ifs
    · exact ⟨h.counter, h.bound, rfl, fun hquiet => by cases hquiet⟩
    · exact h
  | stopTrace =>
    simp only [IOTracePluginC.step]
    split_ifs
    · exact ⟨h.counter, h.bound, fun q hq => absurd hq (Nat.not_lt_zero q), h.quiet⟩
    · exact h
  | manager => exact h.managerTurn

/-- From the end of the loop of `stopTrace` to the next `startTrace` no thread is inside a push,
whatever the threads do in between. -/
theorem quiet_empty (queueCount : ℕ) (actions : List PluginAction)
    (hactions : ∀ action ∈ actions, action.QueueBelow queueCount) :
    (run (step queueCount) actions init).quiet →
      ∀ thread queue, (run (step queueCount) actions init).pushes thread ≠ .inside queue := by
  intro hquiet thread queue hinside
  have h : (run (step queueCount) actions init).Guarded queueCount :=
    run_invariant (P := Guarded queueCount) (fun _ _ haction h => Guarded.step h haction)
      (meets_of_forall (fun action haction => (hactions action haction).lands) init)
      (Guarded.init queueCount)
  have hqueue : queue < queueCount := h.bound thread queue (by rw [hinside]; rfl)
  exact (h.quiet hquiet).2 queue hqueue thread hinside

/-- A push that is under way when tracing is stopped, and one that comes too late. -/
def stopDuringPush : List PluginAction :=
  let thread : Thread := ⟨7, by omega⟩
  [.startTrace, .manager, .manager, .push thread 0, .thread thread, .thread thread, .stopTrace,
    .manager, .manager, .manager, .thread thread, .thread thread, .push thread 0, .manager,
    .manager, .manager, .thread thread, .thread thread]

theorem quiet_empty_small :
    (run (step 1) stopDuringPush init).pushes ⟨7, by omega⟩ ≠ .inside 0 :=
  quiet_empty 1 stopDuringPush (by simp [stopDuringPush, PluginAction.QueueBelow])
    (by decide +kernel) _ _

end IOTracePluginC

end Octf.Plugin
