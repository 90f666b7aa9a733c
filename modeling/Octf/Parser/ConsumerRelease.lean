import Octf.Parser.ParsedIoTraceEventQueue

/-! Whether a consumer is released when the parsing thread has ended: an exception ends the thread
without the flag that the waits look at, and without a notification. -/
namespace Octf.Parser.ParsedIoTraceEventQueue
open Foundation

namespace State

variable {E : Type} {s : State E}

/-- The condition on which the operations wait. -/
def Available (s : State E) : Prop := s.queue ≠ [] ∨ s.finished = true

/-- If the parsing thread has ended, no operation has to wait and none is left waiting. -/
def Released (s : State E) : Prop :=
  s.parser = .ended → s.Available ∧ ∀ op, s.consumer ≠ .asleep op

/-- An exception does not end the thread while the operations have to wait, and what it has left
in the queue is not popped to the last event. -/
def KeepsAvailable (action : Action E) (s : State E) : Prop :=
  match action with
  | .parser => ∀ message, s.parser = .catchException message → s.Available
  | .consumer => s.consumer = .popQueue → s.parser = .ended → s.finished = true ∨ 2 ≤ s.queue.length
  | _ => True

/-- A consumer sleeps only until the notification of what it waits for. -/
structure Watched (s : State E) : Prop where
  finishing : s.parser = .notifyFinish ∨ s.parser = .unlockFinish → s.finished = true
  asleep : ∀ op, s.consumer = .asleep op → s.Available →
    s.parser = .notifyEvent ∨ s.parser = .notifyFinish
  ended : s.parser = .ended → s.Available

theorem Watched.init : (init : State E).Watched where
  finishing h := by rcases h with h | h <;> cases h
  asleep _ h := by cases h
  ended h := by cases h

theorem Watched.released (h : s.Watched) : s.Released := by
  intro hended
  refine ⟨h.ended hended, fun op hasleep => ?_⟩
  rcases h.asleep op hasleep (h.ended hended) with hpc | hpc
  all_goals
    rw [hended] at hpc
    cases hpc

/-- A step of the parsing thread away from a place without notification. -/
theorem Watched.moveParser (h : s.Watched) {s' : State E} (hconsumer : s'.consumer = s.consumer)
    (havailable : s'.Available → s.Available)
    (hquiet : s.parser ≠ .notifyEvent ∧ s.parser ≠ .notifyFinish)
    (hfinishing : s'.parser = .notifyFinish ∨ s'.parser = .unlockFinish → s'.finished = true)
    (hended : s'.parser = .ended → s'.Available) : s'.Watched where
  finishing := hfinishing
  asleep op hasleep hnow := by
    rw [hconsumer] at hasleep
    rcases h.asleep op hasleep (havailable hnow) with hpc | hpc
    · exact absurd hpc hquiet.1
    · exact absurd hpc hquiet.2
  ended := hended

/-- A step behind which the consuming thread does not sleep. -/
theorem Watched.awake (h : s.Watched) {s' : State E} (hparser : s'.parser = s.parser)
    (hfinished : s'.finished = s.finished) (hawake : ∀ op, s'.consumer ≠ .asleep op)
    (hended : s.parser = .ended → s'.Available) : s'.Watched where
  finishing := by
    rw [hparser, hfinished]
    exact h.finishing
  asleep op hasleep := absurd hasleep (hawake op)
  ended := by
    rw [hparser]
    exact hended

theorem Watched.notifyOne (h : s.Watched) : s.notifyOne.Watched := by
  unfold State.notifyOne
  cases hpc : s.consumer with
  | asleep op => exact h.awake rfl rfl (by simp) h.ended
  | _ => exact h

/-- A notification leaves nobody asleep. -/
theorem notifyOne_spec (s : State E) : s.notifyOne.queue = s.queue ∧
    s.notifyOne.finished = s.finished ∧ ∀ op, s.notifyOne.consumer ≠ .asleep op := by
  unfold State.notifyOne
  cases hpc : s.consumer with
  | asleep op => exact ⟨rfl, rfl, by simp⟩
  | _ => exact ⟨rfl, rfl, by simp [hpc]⟩

theorem Watched.parserStep (h : s.Watched) (hkeeps : s.KeepsAvailable .parser) :
    s.parserStep.Watched := by
  obtain ⟨hqueue, hfinished, hawake⟩ := notifyOne_spec s
  unfold State.parserStep
  cases hpc : s.parser with
  | parsing | ended => exact h
  | checkCancel io =>
    simp only
    split_ifs
    all_goals exact h.moveParser rfl id (by simp [hpc]) (by simp) (by simp)
  | waitLimit io =>
    simp only
    split_ifs
    · exact h
    · exact h.moveParser rfl id (by simp [hpc]) (by simp) (by simp)
  | lockQueue io =>
    simp only
    split_ifs
    · exact h
    · exact h.moveParser rfl id (by simp [hpc]) (by simp) (by simp)
  | emplace io => exact ⟨by simp, fun _ _ _ => Or.inl rfl, by simp⟩
  | notifyEvent => exact ⟨by simp, fun op hasleep => absurd hasleep (hawake op), by simp⟩
  | unlockEvent => exact h.moveParser rfl id (by simp [hpc]) (by simp) (by simp)
  | lockFinish =>
    simp only
    split_ifs
    · exact h
    · exact h.moveParser rfl id (by simp [hpc]) (by simp) (by simp)
  | setFinished => exact ⟨fun _ => rfl, fun _ _ _ => Or.inr rfl, by simp⟩
  | notifyFinish =>
    exact ⟨fun _ => hfinished.trans (h.finishing (Or.inl hpc)),
      fun op hasleep => absurd hasleep (hawake op), by simp⟩
  | unlockFinish =>
    have hset := h.finishing (Or.inr hpc)
    exact h.moveParser rfl id (by simp [hpc]) (by simp) fun _ => Or.inr hset
  | catchException message =>
    have havailable := hkeeps message hpc
    exact h.moveParser rfl id (by simp [hpc]) (by simp) fun _ => havailable

theorem Watched.consumerStep (h : s.Watched) (hkeeps : s.KeepsAvailable .consumer) :
    s.consumerStep.Watched := by
  unfold State.consumerStep
  cases hpc : s.consumer with
  | idle | asleep | destroyed => exact h
  | checkException op =>
    simp only
    split_ifs
    all_goals exact h.awake rfl rfl (by simp) h.ended
  | lockQueue op =>
    simp only
    split_ifs
    · exact h
    · exact h.awake rfl rfl (by simp) h.ended
  | test op =>
    simp only
    split_ifs with havailable
    · exact h.awake rfl rfl (by simp) h.ended
    · exact ⟨h.finishing, fun _ _ hnow => absurd hnow havailable, h.ended⟩
  | perform op =>
    rcases s.perform_cases op with ⟨returned, heq⟩ | ⟨-, heq⟩
    all_goals
      simp only [heq]
      exact h.awake rfl rfl (by simp) h.ended
  | popQueue =>
    refine h.awake rfl rfl (by simp) fun hended => ?_
    rcases hkeeps hpc hended with hfinished | hlength
    · exact Or.inr hfinished
    · refine Or.inl (List.ne_nil_of_length_pos ?_)
      rw [List.length_tail]
      omega
  | unlock | setCancel | postCancel | cancelAgain => exact h.awake rfl rfl (by simp) h.ended
  | join =>
    cases hended : s.parser with
    | ended => exact h.awake hended.symm rfl (by simp) h.ended
    | _ => exact h

theorem Watched.step (action : Action E) (h : s.Watched) (hkeeps : s.KeepsAvailable action) :
    (s.step action).Watched := by
  have hparser : ∀ pc handled, pc ≠ .notifyFinish ∧ pc ≠ .unlockFinish ∧ pc ≠ .ended →
      (s.parserChoice pc handled).Watched := by
    intro pc handled hpc
    unfold parserChoice
    cases hparser : s.parser with
    | parsing =>
      refine h.moveParser rfl id (by simp [hparser]) ?_ fun hended => absurd hended hpc.2.2
      rintro (hnotify | hunlock)
      · exact absurd hnotify hpc.1
      · exact absurd hunlock hpc.2.1
    | _ => exact h
  have hconsumer : ∀ pc, (∀ op, pc ≠ .asleep op) → (s.consumerChoice pc).Watched := by
    intro pc hpc
    unfold consumerChoice
    cases hidle : s.consumer with
    | idle => exact h.awake rfl rfl hpc h.ended
    | _ => exact h
  cases action with
  | handle io | finish | fail message => exact hparser _ _ (by simp)
  | parser => exact h.parserStep hkeeps
  | call op | destroy => exact hconsumer _ (by simp)
  | consumer => exact h.consumerStep hkeeps
  | wake => exact h.notifyOne

/-- The steps that break the condition leave a state that is not released. -/
theorem keepsAvailable_of_released (action : Action E) (s : State E)
    (h : (s.step action).Released) : s.KeepsAvailable action := by
  cases action with
  | parser =>
    intro message hpc
    have hstep : s.parserStep = { s with exception := message, parser := .ended } := by
      simp [parserStep, hpc]
    rw [step, hstep] at h
    exact (h rfl).1
  | consumer =>
    intro hpc hended
    have hstep : s.consumerStep = { s with
        queue := s.queue.tail, popped := s.popped ++ s.queue.take 1, consumer := .unlock } := by
      simp [consumerStep, hpc]
    rw [step, hstep] at h
    rcases (h hended).1 with hqueue | hfinished
    · have hpos := List.length_pos_iff.mpr hqueue
      rw [List.length_tail] at hpos
      exact Or.inr (by omega)
    · exact Or.inl hfinished
  | _ => trivial

/-- In a run the consumer is released in every state reached if and only if no exception ends the
parsing thread before an empty queue, and none of the events it leaves is popped as the last. -/
theorem released_iff (actions : List (Action E)) :
    Always step Released actions init ↔ Meets step KeepsAvailable actions (init : State E) :=
  always_iff_meets (fun action _ hkeeps h => h.step action hkeeps) (fun _ h => h.released)
    (fun action s _ hnext => keepsAvailable_of_released action s hnext) Watched.init

/-- The trace cannot be parsed, and the consumer waits for its first event. -/
theorem not_released : ¬ ((run step [.call .empty, .consumer, .consumer, .consumer,
    .fail "Couldn't parse valid trace event", .parser] init : State ℕ).Released) ∧
    (run step [.call .empty, .consumer, .consumer, .consumer,
      .fail "Couldn't parse valid trace event", .parser] init : State ℕ).consumer =
        .asleep .empty := by
  refine ⟨fun h => ?_, rfl⟩
  exact (h rfl).2 .empty rfl

end State

end Octf.Parser.ParsedIoTraceEventQueue
