import Octf.Foundation.ThreadCount
import Octf.Interface.TraceJob

/-! Whether a stop wakes the job's thread. The wait does not look at the flag before it blocks,
so the notification of `stop` must meet the thread in the wait or past it. -/
namespace Octf.Interface
open Foundation

/-- The thread is in its wait, or its loop has ended. -/
def ConsumerPc.Hears : ConsumerPc → Prop
  | .blocked | .woken | .ended _ => True
  | _ => False

/-- The thread is about to notify. -/
def ProducerPc.Notifies (pc : ProducerPc) : Prop := pc = .notify ∨ pc = .notifyStop

namespace TraceJob

variable {T : Type} [DecidableEq T] {s s' : TraceJob T} {thread : T} (memoryPoolSize : ℕ)

/-- A stop has completed and the job's thread sleeps, with no notification on its way. -/
def LostWakeUp (s : TraceJob T) : Prop :=
  s.stopped = true ∧ s.consumer = .blocked ∧ ∀ thread, ¬ (s.producers thread).Notifies

/-- The notification of a stop is made while the job's thread is in its wait, or when it will
not wait again. -/
def Heard (action : JobAction T) (s : TraceJob T) : Prop :=
  match action with
  | .thread thread =>
    s.producers thread = .notifyStop → s.consumer.Hears ∨ s.finish = true
  | _ => True

/-- After a completed stop the thread is not blocked and does not wait again. -/
structure Alert (s : TraceJob T) : Prop where
  stopping : ∀ thread, s.producers thread = .notifyStop → s.stop = true
  stopped : s.stopped = true → s.stop = true
  heard : s.stopped = true → s.consumer = .woken ∨ s.finish = true ∨ ∃ state,
    s.consumer = .ended state
  waits : s.consumer = .wait ∨ s.consumer = .blocked ∨ s.consumer = .woken → s.finish = false

omit [DecidableEq T] in
theorem Alert.init : (TraceJob.init : TraceJob T).Alert where
  stopping _ h := by cases h
  stopped h := by cases h
  heard h := by cases h
  waits _ := rfl

omit [DecidableEq T] in
theorem Alert.awake (h : s.Alert) : ¬ s.LostWakeUp := by
  rintro ⟨hstopped, hblocked, -⟩
  have hfinish := h.waits (Or.inr (Or.inl hblocked))
  rcases h.heard hstopped with hplace | hfinish' | ⟨state, hplace⟩
  · rw [hblocked] at hplace
    cases hplace
  · rw [hfinish] at hfinish'
    cases hfinish'
  · rw [hblocked] at hplace
    cases hplace

/-! ### A step of a thread -/

/-- A step that neither stops nor notifies. -/
structure Calm (s s' : TraceJob T) : Prop where
  stop : s'.stop = s.stop
  finish : s'.finish = s.finish
  stopped : s'.stopped = s.stopped
  consumer : s'.consumer = s.consumer
  stopping : ∀ thread, s'.producers thread = .notifyStop → s.producers thread = .notifyStop

theorem Calm.of_goTo {pc : ProducerPc} (hstop : s'.stop = s.stop) (hfinish : s'.finish = s.finish)
    (hstopped : s'.stopped = s.stopped) (hconsumer : s'.consumer = s.consumer)
    (hproducers : s'.producers = Function.update s.producers thread pc) (hpc : pc ≠ .notifyStop) :
    s.Calm s' := by
  refine ⟨hstop, hfinish, hstopped, hconsumer, fun t ht => ?_⟩
  rw [hproducers, Function.update_apply] at ht
  split_ifs at ht
  · exact absurd ht hpc
  · exact ht

theorem calm_turn (hnotify : ¬ (s.producers thread).Notifies)
    (hset : s.producers thread ≠ .setStop) : s.Calm (s.turn memoryPoolSize thread) := by
  unfold turn
  cases hpc : s.producers thread with
  | notify => exact absurd (Or.inl hpc) hnotify
  | notifyStop => exact absurd (Or.inr hpc) hnotify
  | setStop => exact absurd hpc hset
  | returned result => exact ⟨rfl, rfl, rfl, rfl, fun _ => id⟩
  | tryLockWr size retry =>
    cases retry with
    | zero => exact .of_goTo rfl rfl rfl rfl rfl (by simp)
    | succ retry =>
      simp only
      split_ifs
      all_goals exact .of_goTo rfl rfl rfl rfl rfl (by simp)
  | unlockWr size pos =>
    cases pos
    all_goals exact .of_goTo rfl rfl rfl rfl rfl (by simp)
  | moveWrPtr size | incLost | commit pos => exact .of_goTo rfl rfl rfl rfl rfl (by simp)
  | readStop traceSize | checkValid size | findSpace size | integrityCheck size pos
  | checkTrigger =>
    simp only
    split_ifs
    all_goals exact .of_goTo rfl rfl rfl rfl rfl (by simp)

omit [DecidableEq T] in
theorem Alert.calm (h : s.Alert) (hcalm : s.Calm s') : s'.Alert where
  stopping thread hpc := by
    rw [hcalm.stop]
    exact h.stopping thread (hcalm.stopping thread hpc)
  stopped := by
    rw [hcalm.stopped, hcalm.stop]
    exact h.stopped
  heard := by
    rw [hcalm.stopped, hcalm.finish, hcalm.consumer]
    exact h.heard
  waits := by
    rw [hcalm.finish, hcalm.consumer]
    exact h.waits

/-- A notification wakes the thread that sleeps. -/
theorem Alert.notifyAll (h : s.Alert) (pc : ProducerPc) (hpc : pc ≠ .notifyStop)
    (stopped : Bool) (hstop : stopped = true → s.stop = true)
    (hheard : stopped = true → s.consumer.Hears ∨ s.finish = true) :
    (({ s.notifyAll with stopped := stopped } : TraceJob T).goTo thread pc).Alert where
  stopping t ht := by
    change Function.update s.producers thread pc t = _ at ht
    rw [Function.update_apply] at ht
    split_ifs at ht
    · exact absurd ht hpc
    · exact h.stopping t ht
  stopped := hstop
  heard hstopped := by
    change s.notifyAll.consumer = _ ∨ s.finish = true ∨ ∃ state, s.notifyAll.consumer = _
    unfold TraceJob.notifyAll
    have hheard := hheard hstopped
    cases hplace : s.consumer <;> simp_all [ConsumerPc.Hears]
  waits hplace := by
    change s.notifyAll.consumer = _ ∨ s.notifyAll.consumer = _ ∨ s.notifyAll.consumer = _ at hplace
    change s.finish = false
    apply h.waits
    unfold TraceJob.notifyAll at hplace
    split_ifs at hplace with hblocked
    · exact Or.inr (Or.inl hblocked)
    · exact hplace

theorem Alert.turn (h : s.Alert) (hheard : s.Heard (.thread thread)) :
    (s.turn memoryPoolSize thread).Alert := by
  cases hpc : s.producers thread with
  | notify =>
    unfold TraceJob.turn
    simp only [hpc]
    refine h.notifyAll (.returned (.ok ())) (by simp) s.stopped h.stopped fun hstopped => ?_
    rcases h.heard hstopped with hplace | hfinish | ⟨state, hplace⟩
    · exact Or.inl (by rw [hplace]; trivial)
    · exact Or.inr hfinish
    · exact Or.inl (by rw [hplace]; trivial)
  | notifyStop =>
    unfold TraceJob.turn
    simp only [hpc]
    exact h.notifyAll _ (by simp) true (fun _ => h.stopping thread hpc) fun _ => hheard hpc
  | setStop =>
    unfold TraceJob.turn
    simp only [hpc]
    exact ⟨fun _ _ => rfl, fun _ => rfl, h.heard, h.waits⟩
  | _ =>
    refine h.calm (calm_turn memoryPoolSize ?_ ?_)
    · rintro (hnotify | hnotify)
      all_goals
        rw [hpc] at hnotify
        cases hnotify
    · rw [hpc]
      simp

/-! ### A step of the job's thread -/

omit [DecidableEq T] in
theorem Alert.move (h : s.Alert) (hstop : s'.stop = s.stop) (hstopped : s'.stopped = s.stopped)
    (hproducers : s'.producers = s.producers)
    (hheard : s.stopped = true →
      s'.consumer = .woken ∨ s'.finish = true ∨ ∃ state, s'.consumer = .ended state)
    (hwaits : s'.consumer = .wait ∨ s'.consumer = .blocked ∨ s'.consumer = .woken →
      s'.finish = false) : s'.Alert where
  stopping thread hpc := by
    rw [hproducers] at hpc
    rw [hstop]
    exact h.stopping thread hpc
  stopped := by
    rw [hstopped, hstop]
    exact h.stopped
  heard := by
    rw [hstopped]
    exact hheard
  waits := hwaits

omit [DecidableEq T] in
/-- After a completed stop the thread drains the ring for the last time. -/
theorem Alert.finish (h : s.Alert) (hwoken : s.consumer ≠ .woken)
    (hended : ∀ state, s.consumer ≠ .ended state) (hstopped : s.stopped = true) :
    s.finish = true := by
  rcases h.heard hstopped with hplace | hfinish | ⟨state, hplace⟩
  · exact absurd hplace hwoken
  · exact hfinish
  · exact absurd hplace (hended state)

omit [DecidableEq T] in
theorem Alert.loopEnd (h : s.Alert) (hfinish : s.stopped = true → s.finish = true) :
    s.loopEnd.Alert := by
  refine h.move rfl rfl rfl (fun hstopped => Or.inr (Or.inl (hfinish hstopped))) fun hplace => ?_
  by_contra hnot
  have hend : s.finish = true := Bool.eq_true_of_not_eq_false hnot
  simp [TraceJob.loopEnd, hend] at hplace

omit [DecidableEq T] in
theorem Alert.consume (h : s.Alert) (serialized : Bool) :
    (s.consume memoryPoolSize serialized).Alert := by
  unfold TraceJob.consume
  cases hpc : s.consumer with
  | blocked | ended _ => exact h
  | wait =>
    have hfinish := h.waits (Or.inl hpc)
    refine h.move rfl rfl rfl (fun hstopped => ?_) fun _ => hfinish
    have hfinish' := h.finish (by simp [hpc]) (by simp [hpc]) hstopped
    rw [hfinish] at hfinish'
    cases hfinish'
  | woken =>
    refine h.move rfl rfl rfl (fun hstopped => Or.inr (Or.inl ?_)) (by simp)
    simp [h.stopped hstopped]
  | isEmpty | getRdBuffer | serialize | releaseRdBuffer =>
    have hfinish := h.finish (by simp [hpc]) (by simp [hpc])
    simp only
    split_ifs
    all_goals
      first
      | exact h.loopEnd hfinish
      | exact h.move rfl rfl rfl (fun hstopped => Or.inr (Or.inl (hfinish hstopped))) (by simp)

theorem Alert.step (h : s.Alert) (action : JobAction T) (hheard : s.Heard action) :
    (s.step memoryPoolSize action).Alert := by
  unfold TraceJob.step
  cases action with
  | pushTrace thread traceSize =>
    simp only
    split_ifs
    · exact h.calm (.of_goTo rfl rfl rfl rfl rfl (by simp))
    · exact h
  | stop thread =>
    simp only
    split_ifs
    · exact h.calm (.of_goTo rfl rfl rfl rfl rfl (by simp))
    · exact h
  | thread thread => exact h.turn memoryPoolSize hheard
  | consumer serialized => exact h.consume memoryPoolSize serialized
  | timeOut =>
    simp only
    split_ifs
    · exact h.move rfl rfl rfl (fun _ => Or.inr (Or.inl rfl)) (by simp)
    · exact h
  | spurious =>
    simp only
    split_ifs with hblocked
    · have hfinish := h.waits (Or.inr (Or.inl hblocked))
      exact h.move rfl rfl rfl (fun _ => Or.inl rfl) fun _ => hfinish
    · exact h

/-- No stop whose notification is heard leaves the thread asleep. -/
theorem not_lostWakeUp {actions : List (JobAction T)}
    (hheard : Meets (step memoryPoolSize) Heard actions init) :
    ¬ (run (step memoryPoolSize) actions init).LostWakeUp :=
  (run_invariant (fun action _ hheard h => h.step memoryPoolSize action hheard) hheard
    Alert.init).awake

/-- The stop is called while the thread waits. -/
def stopInWait : List (JobAction Unit) := [.consumer true, .stop (), .thread (), .thread ()]

theorem not_lostWakeUp_stopInWait : ¬ (run (step 32768) stopInWait init).LostWakeUp :=
  not_lostWakeUp 32768
    ⟨trivial, trivial, fun h => absurd h (by decide), fun _ => Or.inl trivial, trivial⟩

/-- The stop is called before the thread waits for the first time. -/
def stopBeforeWait : List (JobAction Unit) := [.stop (), .thread (), .thread (), .consumer true]

theorem lostWakeUp_stopBeforeWait : (run (step 32768) stopBeforeWait init).LostWakeUp := by
  unfold LostWakeUp ProducerPc.Notifies
  decide

/-! ### Every other stop can be missed -/

/-- The thread is at work in its loop, over a valid trace, and will wait again. -/
structure Busy (s : TraceJob T) : Prop where
  valid : s.valid = true
  finish : s.finish = false
  place : ¬ s.consumer.Hears

/-- What the thread leaves alone on its way to the next wait. -/
structure Onwards (s s' : TraceJob T) : Prop where
  valid : s'.valid = s.valid
  finish : s'.finish = s.finish
  stopped : s'.stopped = s.stopped
  producers : s'.producers = s.producers

omit [DecidableEq T] in
theorem Onwards.trans {s'' : TraceJob T} (h : s.Onwards s') (h' : s'.Onwards s'') :
    s.Onwards s'' :=
  ⟨h'.valid.trans h.valid, h'.finish.trans h.finish, h'.stopped.trans h.stopped,
    h'.producers.trans h.producers⟩

/-- What is left to do before the next wait, at most. -/
def work (s : TraceJob T) : ℕ :=
  match s.consumer with
  | .isEmpty => 4 * s.events.length + 1
  | .getRdBuffer => 4 * s.events.length
  | .serialize => max 3 (4 * s.events.length - 1)
  | .releaseRdBuffer => max 2 (4 * s.events.length - 2)
  | _ => 0

omit [DecidableEq T] in
theorem Busy.loopEnd (h : s.Busy) : s.Onwards s.loopEnd ∧ s.loopEnd.consumer = .wait := by
  unfold TraceJob.loopEnd
  exact ⟨⟨rfl, rfl, rfl, rfl⟩, if_neg (by rw [h.finish]; simp)⟩

omit [DecidableEq T] in
/-- The busy thread waits next, or has less to do. -/
theorem Busy.consume (h : s.Busy) (hwait : s.consumer ≠ .wait) :
    s.Onwards (s.consume memoryPoolSize true) ∧
      ((s.consume memoryPoolSize true).consumer = .wait ∨
        (s.consume memoryPoolSize true).work < s.work ∧
          ¬ (s.consume memoryPoolSize true).consumer.Hears) := by
  have hplace := h.place
  obtain ⟨honwards, hend⟩ := h.loopEnd
  unfold TraceJob.consume
  cases hpc : s.consumer with
  | wait => exact absurd hpc hwait
  | blocked | woken | ended _ =>
    rw [hpc] at hplace
    exact absurd trivial hplace
  | isEmpty =>
    by_cases hready : s.valid = true ∧ s.events ≠ []
    · simp only [if_pos hready]
      refine ⟨⟨rfl, rfl, rfl, rfl⟩, Or.inr ⟨?_, not_false⟩⟩
      simp only [work, hpc]
      omega
    · simp only [if_neg hready]
      exact ⟨honwards, Or.inl hend⟩
  | getRdBuffer =>
    simp only [if_neg (show ¬ (!s.valid) = true by rw [h.valid]; simp)]
    by_cases hready : s.HeadReady
    · simp only [if_pos hready]
      refine ⟨⟨rfl, rfl, rfl, rfl⟩, Or.inr ⟨?_, not_false⟩⟩
      have hpos : 0 < s.events.length := by
        obtain ⟨e, he, -⟩ := hready
        exact List.length_pos_of_mem (List.mem_of_mem_head? he)
      simp only [work, hpc]
      omega
    · simp only [if_neg hready]
      exact ⟨honwards, Or.inl hend⟩
  | serialize =>
    refine ⟨⟨rfl, rfl, rfl, rfl⟩, Or.inr ⟨?_, not_false⟩⟩
    simp only [if_true, work, hpc]
    omega
  | releaseRdBuffer =>
    simp only [if_pos h.valid]
    refine ⟨⟨rfl, rfl, rfl, rfl⟩, Or.inr ⟨?_, not_false⟩⟩
    simp only [work, hpc, release, List.length_tail]
    omega

/-- The busy thread comes to its next wait. -/
theorem Busy.exists_wait (h : s.Busy) : ∃ actions,
    s.Onwards (run (step memoryPoolSize) actions s) ∧
      (run (step memoryPoolSize) actions s).consumer = .wait := by
  induction hn : s.work using Nat.strong_induction_on generalizing s with
  | _ n ih =>
    by_cases hwait : s.consumer = .wait
    · exact ⟨[], ⟨rfl, rfl, rfl, rfl⟩, hwait⟩
    · obtain ⟨honwards, hnext | ⟨hless, hplace⟩⟩ := h.consume memoryPoolSize hwait
      · exact ⟨[.consumer true], honwards, hnext⟩
      · have hbusy : (s.consume memoryPoolSize true).Busy :=
          ⟨honwards.valid.trans h.valid, honwards.finish.trans h.finish, hplace⟩
        obtain ⟨actions, hrest, hend⟩ := ih _ (hn ▸ hless) hbusy rfl
        exact ⟨.consumer true :: actions, honwards.trans hrest, hend⟩

/-- A notification that finds no sleeper. -/
theorem turn_notifies (hwait : ¬ s.consumer = .blocked) (hpc : (s.producers thread).Notifies) :
    (s.turn memoryPoolSize thread).consumer = s.consumer ∧
      ((s.turn memoryPoolSize thread).stopped = true ↔
        s.stopped = true ∨ s.producers thread = .notifyStop) ∧
      (s.turn memoryPoolSize thread).producers =
        Function.update s.producers thread (.returned (.ok ())) := by
  have hasleep : s.notifyAll.consumer = s.consumer := if_neg hwait
  unfold turn
  rcases hpc with hpc | hpc
  · simp only [hpc]
    exact ⟨hasleep, by simp [TraceJob.notifyAll, ret, goTo], rfl⟩
  · simp only [hpc]
    exact ⟨hasleep, by simp [ret, goTo], rfl⟩

/-- The notifications on their way can all be made before the thread sleeps. -/
theorem exists_silence [Finite T] (hwait : s.consumer = .wait) (hstopped : s.stopped = true) :
    ∃ actions, (run (step memoryPoolSize) actions s).consumer = .wait ∧
      (run (step memoryPoolSize) actions s).stopped = true ∧
      ∀ thread, ¬ ((run (step memoryPoolSize) actions s).producers thread).Notifies := by
  induction hn : threadCount s.producers ProducerPc.Notifies generalizing s with
  | zero => exact ⟨[], hwait, hstopped, threadCount_eq_zero_iff.mp hn⟩
  | succ n ih =>
    have hsome : ∃ thread, (s.producers thread).Notifies := by
      by_contra hnone
      push Not at hnone
      rw [threadCount_eq_zero_iff.mpr hnone] at hn
      cases hn
    obtain ⟨thread, hpc⟩ := hsome
    obtain ⟨hplace, hstop, hproducers⟩ :=
      turn_notifies memoryPoolSize (by rw [hwait]; simp) hpc
    have hcount : threadCount (s.turn memoryPoolSize thread).producers ProducerPc.Notifies = n := by
      have hquiet : ¬ (ProducerPc.returned (.ok ())).Notifies := by simp [ProducerPc.Notifies]
      have hleave := threadCount_update_leave hquiet hpc
      rw [← hproducers] at hleave
      omega
    obtain ⟨actions, hend⟩ := ih (hplace.trans hwait) (hstop.mpr (Or.inl hstopped)) hcount
    exact ⟨.thread thread :: actions, hend⟩

omit [DecidableEq T] in
theorem lostWakeUp_of_wait (hwait : s.consumer = .wait) (hstopped : s.stopped = true)
    (hsilent : ∀ thread, ¬ (s.producers thread).Notifies) :
    (s.consume memoryPoolSize true).LostWakeUp := by
  unfold TraceJob.consume
  rw [hwait]
  exact ⟨hstopped, rfl, hsilent⟩

/-- After a stop that is not heard, over a valid trace, the thread can fall asleep for good. -/
theorem exists_lostWakeUp [Finite T] (hvalid : s.valid = true)
    (hpc : s.producers thread = .notifyStop) (hmissed : ¬ s.Heard (.thread thread)) :
    ∃ actions, (run (step memoryPoolSize) (.thread thread :: actions) s).LostWakeUp := by
  have hplace : ¬ s.consumer.Hears := fun hplace => hmissed fun _ => Or.inl hplace
  have hfinish : s.finish = false :=
    Bool.eq_false_of_not_eq_true fun hfinish => hmissed fun _ => Or.inr hfinish
  have hawake : ¬ s.consumer = .blocked := fun hblocked => hplace (by rw [hblocked]; trivial)
  obtain ⟨hplace', hstop, -⟩ := turn_notifies memoryPoolSize hawake (Or.inr hpc)
  have hbusy : (s.turn memoryPoolSize thread).Busy := by
    refine ⟨?_, ?_, by rwa [hplace']⟩
    · unfold turn
      rw [hpc]
      exact hvalid
    · unfold turn
      rw [hpc]
      exact hfinish
  obtain ⟨toWait, honwards, hwait⟩ := hbusy.exists_wait memoryPoolSize
  obtain ⟨toSilence, hwait', hstopped, hsilent⟩ := exists_silence memoryPoolSize hwait
    (honwards.stopped.trans (hstop.mpr (Or.inr hpc)))
  refine ⟨toWait ++ (toSilence ++ [.consumer true]), ?_⟩
  rw [run_cons, run_append, run_append, run_cons, run_nil]
  exact lostWakeUp_of_wait memoryPoolSize hwait' hstopped hsilent

end TraceJob

end Octf.Interface
