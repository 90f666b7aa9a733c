import Octf.Parser.ParsedIoTraceEventQueue
import Mathlib.Data.List.Basic
import Mathlib.Tactic.Common

/-! The hand-over of events: the queue is bounded, and what is popped is what has been handled. -/
namespace Octf.Parser.ParsedIoTraceEventQueue
open Foundation

namespace State

variable {E : Type} {s : State E}

/-- A slot taken from the semaphore for an event that is not in the queue yet. -/
def taken (s : State E) : ℕ :=
  match s.parser with
  | .lockQueue _ | .emplace _ => 1
  | _ => 0

/-- A slot given back for an event that is still in the queue. -/
def given (s : State E) : ℕ :=
  match s.consumer with
  | .popQueue => 1
  | _ => 0

/-- The slots given by cancellations. -/
def posts (s : State E) : ℕ :=
  match s.consumer with
  | .join | .cancelAgain => 1
  | .destroyed => 2
  | _ => 0

/-- The parsing thread has ended before the parser is destroyed. -/
def Joined (s : State E) : Prop :=
  match s.consumer with
  | .cancelAgain | .destroyed => s.parser = .ended
  | _ => True

/-- The slots of the queue are accounted for. -/
structure Slots (s : State E) : Prop where
  exclusive : s.ParserLocks = false ∨ s.ConsumerLocks = false
  count : s.queueLimit + s.queue.length + s.taken = QUEUE_LIMIT + s.posts + s.given
  bound : s.queue.length ≤ QUEUE_LIMIT + min s.posts 1
  popping : s.consumer = .popQueue → s.queue ≠ []
  joined : s.Joined
  cancelled : 1 ≤ s.posts ∨ s.consumer = .postCancel → s.cancelRequested = true

theorem Slots.init : (init : State E).Slots where
  exclusive := Or.inl rfl
  count := rfl
  bound := Nat.zero_le _
  popping h := by cases h
  joined := trivial
  cancelled h := by simp [State.init, posts] at h

/-- A notification makes a thread that sleeps go for the lock. -/
theorem notifyOne_cases (s : State E) : s.notifyOne = s ∨
    ∃ op, s.consumer = .asleep op ∧ s.notifyOne = { s with consumer := .lockQueue op } := by
  unfold notifyOne
  cases hpc : s.consumer with
  | asleep op => exact Or.inr ⟨op, rfl, rfl⟩
  | _ => exact Or.inl rfl

/-- A step of the parsing thread that has not ended: the slots stay, and an event only comes in. -/
theorem Slots.of_parser (h : s.Slots) {s' : State E} (hended : s.parser ≠ .ended)
    (hconsumer : s'.consumer = s.consumer) (hcancel : s'.cancelRequested = s.cancelRequested)
    (hlocks : s'.ParserLocks = true → s.ParserLocks = true ∨ s.ConsumerLocks = false)
    (hcount : s'.queueLimit + s'.queue.length + s'.taken =
      s.queueLimit + s.queue.length + s.taken)
    (hbound : s'.queue.length ≤ QUEUE_LIMIT + min s.posts 1)
    (hqueue : s.queue <+: s'.queue) : s'.Slots := by
  have hsame : s'.ConsumerLocks = s.ConsumerLocks ∧ s'.posts = s.posts ∧ s'.given = s.given := by
    unfold ConsumerLocks posts given
    rw [hconsumer]
    exact ⟨rfl, rfl, rfl⟩
  obtain ⟨hlocks', hposts, hgiven⟩ := hsame
  refine ⟨?_, ?_, ?_, fun hpop hnil => ?_, ?_, ?_⟩
  · rw [hlocks']
    by_cases hlock : s'.ParserLocks = true
    · rcases hlocks hlock with hown | hfree
      · exact Or.inr (h.exclusive.resolve_left (by simp [hown]))
      · exact Or.inr hfree
    · exact Or.inl (by simpa using hlock)
  · rw [hcount, hposts, hgiven]
    exact h.count
  · rwa [hposts]
  · rw [hconsumer] at hpop
    exact h.popping hpop (List.prefix_nil.mp (hnil ▸ hqueue))
  · have hjoined := h.joined
    unfold Joined at hjoined ⊢
    rw [hconsumer]
    cases hplace : s.consumer with
    | cancelAgain | destroyed =>
      rw [hplace] at hjoined
      exact absurd hjoined hended
    | _ => trivial
  · rw [hposts, hconsumer, hcancel]
    exact h.cancelled

/-- A step of the consuming thread behind which the slots are accounted for again. -/
theorem Slots.of_consumer (h : s.Slots) {s' : State E} (hparser : s'.parser = s.parser)
    (hlocks : s'.ConsumerLocks = true → s.ConsumerLocks = true ∨ s.ParserLocks = false)
    (hcount : s'.queueLimit + s'.queue.length + s.posts + s.given =
      s.queueLimit + s.queue.length + s'.posts + s'.given)
    (hbound : s'.queue.length ≤ s.queue.length) (hposts : min s.posts 1 ≤ min s'.posts 1)
    (hpopping : s'.consumer = .popQueue → s'.queue ≠ []) (hjoined : s'.Joined)
    (hcancelled : 1 ≤ s'.posts ∨ s'.consumer = .postCancel → s'.cancelRequested = true) :
    s'.Slots := by
  have hsame : s'.ParserLocks = s.ParserLocks ∧ s'.taken = s.taken := by
    unfold ParserLocks taken
    rw [hparser]
    exact ⟨rfl, rfl⟩
  obtain ⟨hlocks', htaken⟩ := hsame
  refine ⟨?_, ?_, ?_, hpopping, hjoined, hcancelled⟩
  · rw [hlocks']
    by_cases hlock : s'.ConsumerLocks = true
    · rcases hlocks hlock with hown | hfree
      · exact Or.inl (h.exclusive.resolve_right (by simp [hown]))
      · exact Or.inl hfree
    · exact Or.inr (by simpa using hlock)
  · have hbefore := h.count
    rw [htaken]
    omega
  · have hbefore := h.bound
    omega

theorem Slots.notifyOne (h : s.Slots) : s.notifyOne.Slots := by
  rcases s.notifyOne_cases with heq | ⟨op, hpc, heq⟩
  · rwa [heq]
  · rw [heq]
    exact h.of_consumer rfl (fun hlock => by cases hlock) (by simp [posts, given, hpc]) le_rfl
      (by simp [posts, hpc]) (fun hplace => by cases hplace) trivial (by simp [posts])

theorem parser_notifyOne (s : State E) : s.notifyOne.parser = s.parser := by
  rcases s.notifyOne_cases with heq | ⟨op, -, heq⟩ <;> rw [heq]

/-- A step that only moves the parsing thread. -/
theorem Slots.moveParser (h : s.Slots) {s' : State E} (hended : s.parser ≠ .ended)
    (hconsumer : s'.consumer = s.consumer) (hcancel : s'.cancelRequested = s.cancelRequested)
    (hqueueLimit : s'.queueLimit = s.queueLimit) (hqueue : s'.queue = s.queue)
    (htaken : s'.taken = s.taken)
    (hlocks : s'.ParserLocks = true → s.ParserLocks = true ∨ s.ConsumerLocks = false) :
    s'.Slots :=
  h.of_parser hended hconsumer hcancel hlocks (by rw [hqueueLimit, hqueue, htaken])
    (hqueue ▸ h.bound) (hqueue ▸ List.prefix_rfl)

theorem Slots.parserStep (h : s.Slots) : s.parserStep.Slots := by
  unfold State.parserStep
  cases hpc : s.parser with
  | parsing | ended => exact h
  | checkCancel io =>
    simp only
    split_ifs
    all_goals
      exact h.moveParser (by simp [hpc]) rfl rfl rfl rfl (by simp [taken, hpc])
        (fun hlock => by cases hlock)
  | waitLimit io =>
    simp only
    split_ifs with hzero
    · exact h
    · refine h.of_parser (by simp [hpc]) rfl rfl (fun hlock => by cases hlock) ?_ h.bound
        List.prefix_rfl
      simp only [taken, hpc]
      omega
  | lockQueue io =>
    simp only
    split_ifs with hlock
    · exact h
    · exact h.moveParser (by simp [hpc]) rfl rfl rfl rfl (by simp [taken, hpc])
        (fun _ => Or.inr (by simpa using hlock))
  | emplace io =>
    -- no slot is given back while the lock is held, and no second cancellation has come
    have hfree : s.ConsumerLocks = false := h.exclusive.resolve_left (by simp [ParserLocks, hpc])
    have hgiven : s.given = 0 := by
      unfold given
      cases hplace : s.consumer <;> simp_all [ConsumerLocks]
    have hposts : s.posts ≤ 1 := by
      have hjoined := h.joined
      unfold posts
      unfold Joined at hjoined
      cases hplace : s.consumer <;> simp_all
    have hcount := h.count
    simp only [taken, hpc] at hcount
    refine h.of_parser (by simp [hpc]) rfl rfl (fun _ => Or.inr hfree) ?_ ?_
      (List.prefix_append _ _)
    · simp only [taken, hpc, List.length_append, List.length_singleton]
      omega
    · simp only [List.length_append, List.length_singleton]
      omega
  | notifyEvent | notifyFinish =>
    have hpc' := (parser_notifyOne s).trans hpc
    exact h.notifyOne.moveParser (by simp [hpc']) rfl rfl rfl rfl (by simp [taken, hpc'])
      (fun _ => Or.inl (by simp [ParserLocks, hpc']))
  | lockFinish =>
    simp only
    split_ifs with hlock
    · exact h
    · exact h.moveParser (by simp [hpc]) rfl rfl rfl rfl (by simp [taken, hpc])
        (fun _ => Or.inr (by simpa using hlock))
  | setFinished =>
    exact h.moveParser (by simp [hpc]) rfl rfl rfl rfl (by simp [taken, hpc])
      (fun _ => Or.inl (by simp [ParserLocks, hpc]))
  | unlockEvent | unlockFinish | catchException message =>
    exact h.moveParser (by simp [hpc]) rfl rfl rfl rfl (by simp [taken, hpc])
      (fun hlock => by cases hlock)

/-- A step that only moves the consuming thread. -/
theorem Slots.moveConsumer (h : s.Slots) {s' : State E} (hparser : s'.parser = s.parser)
    (hqueueLimit : s'.queueLimit = s.queueLimit) (hqueue : s'.queue = s.queue)
    (hgiven : s'.given = s.given) (hposts : s'.posts = s.posts)
    (hlocks : s'.ConsumerLocks = true → s.ConsumerLocks = true ∨ s.ParserLocks = false)
    (hplace : s'.consumer ≠ .popQueue) (hjoined : s'.Joined)
    (hcancelled : 1 ≤ s'.posts ∨ s'.consumer = .postCancel → s'.cancelRequested = true) :
    s'.Slots :=
  h.of_consumer hparser hlocks (by rw [hqueueLimit, hqueue, hgiven, hposts]) (hqueue ▸ le_rfl)
    (hposts ▸ le_rfl) (fun hpop => absurd hpop hplace) hjoined hcancelled

theorem Slots.consumerStep (h : s.Slots) : s.consumerStep.Slots := by
  unfold State.consumerStep
  cases hpc : s.consumer with
  | idle | asleep | destroyed => exact h
  | checkException op =>
    simp only
    split_ifs
    all_goals
      exact h.moveConsumer rfl rfl rfl (by simp [given, hpc]) (by simp [posts, hpc])
        (fun hlock => by cases hlock) (by simp) trivial (by simp [posts])
  | lockQueue op =>
    simp only
    split_ifs with hlock
    · exact h
    · exact h.moveConsumer rfl rfl rfl (by simp [given, hpc]) (by simp [posts, hpc])
        (fun _ => Or.inr (by simpa using hlock)) (by simp) trivial (by simp [posts])
  | test op =>
    simp only
    split_ifs
    all_goals
      exact h.moveConsumer rfl rfl rfl (by simp [given, hpc]) (by simp [posts, hpc])
        (fun _ => Or.inl (by simp [ConsumerLocks, hpc])) (by simp) trivial (by simp [posts])
  | perform op =>
    have hunlock : ∀ returned, ({ s with returned := returned, consumer := .unlock } :
        State E).Slots := fun returned =>
      h.moveConsumer rfl rfl rfl (by simp [given, hpc]) (by simp [posts, hpc])
        (fun _ => Or.inl (by simp [ConsumerLocks, hpc])) (by simp) trivial (by simp [posts])
    rcases s.perform_cases op with ⟨returned, heq⟩ | ⟨hqueue, heq⟩
    · simp only [heq]
      exact hunlock returned
    · simp only [heq]
      refine h.of_consumer rfl (fun _ => Or.inl (by simp [ConsumerLocks, hpc])) ?_ le_rfl
        (by simp [posts, hpc]) (fun _ => hqueue) trivial (by simp [posts])
      simp only [posts, given, hpc]
      omega
  | popQueue =>
    have hpos := List.length_pos_iff.mpr (h.popping hpc)
    refine h.of_consumer rfl (fun _ => Or.inl (by simp [ConsumerLocks, hpc])) ?_ ?_
      (by simp [posts, hpc]) (fun hplace => by cases hplace) trivial (by simp [posts])
    · simp only [posts, given, hpc, List.length_tail]
      omega
    · simp
  | unlock =>
    exact h.moveConsumer rfl rfl rfl (by simp [given, hpc]) (by simp [posts, hpc])
      (fun hlock => by cases hlock) (by simp) trivial (by simp [posts])
  | setCancel =>
    exact h.moveConsumer rfl rfl rfl (by simp [given, hpc]) (by simp [posts, hpc])
      (fun hlock => by cases hlock) (by simp) trivial (fun _ => rfl)
  | postCancel =>
    have hcancelled := h.cancelled (Or.inr hpc)
    refine h.of_consumer rfl (fun hlock => by cases hlock) ?_ le_rfl (by simp [posts, hpc])
      (fun hplace => by cases hplace) trivial (fun _ => hcancelled)
    simp only [posts, given, hpc]
    omega
  | join =>
    have hcancelled := h.cancelled (Or.inl (by simp [posts, hpc]))
    cases hended : s.parser with
    | ended =>
      exact h.moveConsumer hended.symm rfl rfl (by simp [given, hpc]) (by simp [posts, hpc])
        (fun hlock => by cases hlock) (by simp) (by simp [Joined]) (fun _ => hcancelled)
    | _ => exact h
  | cancelAgain =>
    have hjoined := h.joined
    simp only [Joined, hpc] at hjoined
    refine h.of_consumer rfl (fun hlock => by cases hlock) ?_ le_rfl (by simp [posts, hpc])
      (fun hplace => by cases hplace) hjoined (fun _ => rfl)
    simp only [posts, given, hpc]
    omega

theorem Slots.step (action : Action E) (h : s.Slots) : (s.step action).Slots := by
  have hparser : ∀ pc handled, ({ s with parser := pc } : State E).ParserLocks = false →
      ({ s with parser := pc } : State E).taken = 0 → (s.parserChoice pc handled).Slots := by
    intro pc handled hlocks htaken
    unfold parserChoice
    cases hpc : s.parser with
    | parsing =>
      refine h.moveParser (by simp [hpc]) rfl rfl rfl rfl ?_ fun hlock => ?_
      · rw [show s.taken = 0 by simp [taken, hpc]]
        exact htaken
      · exact absurd hlock (by simpa [ParserLocks] using hlocks)
    | _ => exact h
  have hconsumer : ∀ pc, pc = .setCancel ∨ (∃ op, pc = .checkException op) →
      (s.consumerChoice pc).Slots := by
    intro pc hplace
    unfold consumerChoice
    cases hpc : s.consumer with
    | idle =>
      rcases hplace with rfl | ⟨op, rfl⟩
      all_goals
        exact h.moveConsumer rfl rfl rfl (by simp [given, hpc]) (by simp [posts, hpc])
          (fun hlock => by cases hlock) (by simp) trivial (by simp [posts])
    | _ => exact h
  cases action with
  | handle io | finish | fail message => exact hparser _ _ rfl rfl
  | parser => exact h.parserStep
  | call op => exact hconsumer _ (Or.inr ⟨op, rfl⟩)
  | destroy => exact hconsumer _ (Or.inl rfl)
  | consumer => exact h.consumerStep
  | wake => exact h.notifyOne

/-! ### The order of the events -/

/-- The event that the parsing thread is handling. -/
def pending (s : State E) : List E :=
  match s.parser with
  | .checkCancel io | .waitLimit io | .lockQueue io | .emplace io => [io]
  | _ => []

/-- No cancellation had been requested for the event that is handled. -/
def admitted (s : State E) : Bool :=
  match s.parser with
  | .waitLimit _ | .lockQueue _ | .emplace _ => true
  | _ => false

/-- The handled events are popped, in the queue, skipped since the cancellation, or pending. -/
def Ordered (s : State E) : Prop :=
  ∃ skipped, s.handled = s.popped ++ s.queue ++ skipped ++ s.pending ∧
    (skipped ≠ [] → s.cancelRequested = true ∧ s.admitted = false)

theorem Ordered.init : (init : State E).Ordered := ⟨[], rfl, fun h => absurd rfl h⟩

/-- A step that moves no event. -/
theorem Ordered.of_eq (h : s.Ordered) {s' : State E} (hhandled : s'.handled = s.handled)
    (hevents : s'.popped ++ s'.queue = s.popped ++ s.queue) (hpending : s'.pending = s.pending)
    (hcancel : s.cancelRequested = true → s'.cancelRequested = true)
    (hadmitted : s.admitted = false → s'.admitted = false) : s'.Ordered := by
  obtain ⟨skipped, hsplit, hskipped⟩ := h
  refine ⟨skipped, by rw [hhandled, hevents, hpending, hsplit], fun hne => ?_⟩
  obtain ⟨hrequested, hout⟩ := hskipped hne
  exact ⟨hcancel hrequested, hadmitted hout⟩

theorem Ordered.notifyOne (h : s.Ordered) : s.notifyOne.Ordered := by
  rcases s.notifyOne_cases with heq | ⟨op, -, heq⟩
  · rwa [heq]
  · rw [heq]
    exact h.of_eq rfl rfl rfl id id

theorem Ordered.parserStep (h : s.Ordered) : s.parserStep.Ordered := by
  unfold State.parserStep
  cases hpc : s.parser with
  | parsing | ended => exact h
  | checkCancel io =>
    obtain ⟨skipped, hsplit, hskipped⟩ := h
    simp only [pending, hpc] at hsplit
    simp only
    split_ifs with hcancel
    · exact ⟨skipped ++ [io], by simp [hsplit, pending], fun _ => ⟨hcancel, rfl⟩⟩
    · have hnone : skipped = [] := by
        by_contra hne
        exact hcancel (hskipped hne).1
      exact ⟨[], by simp [hsplit, hnone, pending], fun hne => absurd rfl hne⟩
  | waitLimit io =>
    simp only
    split_ifs
    · exact h
    · exact h.of_eq rfl rfl (by simp [pending, hpc]) id (by simp [admitted, hpc])
  | lockQueue io =>
    simp only
    split_ifs
    · exact h
    · exact h.of_eq rfl rfl (by simp [pending, hpc]) id (by simp [admitted, hpc])
  | emplace io =>
    obtain ⟨skipped, hsplit, hskipped⟩ := h
    have hnone : skipped = [] := by
      by_contra hne
      have hout := (hskipped hne).2
      simp [admitted, hpc] at hout
    simp only [pending, hpc] at hsplit
    exact ⟨[], by simp [hsplit, hnone, pending], fun hne => absurd rfl hne⟩
  | notifyEvent | notifyFinish =>
    have hpc' := (parser_notifyOne s).trans hpc
    exact h.notifyOne.of_eq rfl rfl (by simp [pending, hpc']) id (by simp [admitted, hpc'])
  | lockFinish =>
    simp only
    split_ifs
    · exact h
    · exact h.of_eq rfl rfl (by simp [pending, hpc]) id (by simp [admitted, hpc])
  | unlockEvent | setFinished | unlockFinish | catchException message =>
    exact h.of_eq rfl rfl (by simp [pending, hpc]) id (by simp [admitted, hpc])

/-- The consuming thread moves no event but from the queue to those popped. -/
theorem consumerStep_frame (s : State E) : s.consumerStep.handled = s.handled ∧
    s.consumerStep.popped ++ s.consumerStep.queue = s.popped ++ s.queue ∧
    s.consumerStep.parser = s.parser ∧
    (s.cancelRequested = true → s.consumerStep.cancelRequested = true) := by
  unfold State.consumerStep
  cases hpc : s.consumer with
  | idle | asleep | destroyed | unlock => exact ⟨rfl, rfl, rfl, id⟩
  | checkException op | lockQueue op | test op =>
    simp only
    split_ifs
    all_goals exact ⟨rfl, rfl, rfl, id⟩
  | perform op =>
    rcases s.perform_cases op with ⟨returned, heq⟩ | ⟨-, heq⟩
    all_goals simp [heq]
  | popQueue =>
    refine ⟨rfl, ?_, rfl, id⟩
    cases s.queue <;> simp
  | setCancel | postCancel | cancelAgain => exact ⟨rfl, rfl, rfl, by simp⟩
  | join => cases hended : s.parser <;> simp [hended]

theorem Ordered.consumerStep (h : s.Ordered) : s.consumerStep.Ordered := by
  obtain ⟨hhandled, hevents, hparser, hcancel⟩ := consumerStep_frame s
  refine h.of_eq hhandled hevents ?_ hcancel ?_
  · unfold pending
    rw [hparser]
  · unfold admitted
    rw [hparser]
    exact id

theorem Ordered.step (action : Action E) (h : s.Ordered) : (s.step action).Ordered := by
  have hparser : ∀ pc handled, ({ s with parser := pc } : State E).pending = handled →
      ({ s with parser := pc } : State E).admitted = false →
      (s.parserChoice pc handled).Ordered := by
    intro pc handled hpending hadmitted
    unfold parserChoice
    cases hpc : s.parser with
    | parsing =>
      obtain ⟨skipped, hsplit, hskipped⟩ := h
      simp only [pending, hpc, List.append_nil] at hsplit
      exact ⟨skipped, by rw [hsplit, ← hpending]; rfl, fun hne => ⟨(hskipped hne).1, hadmitted⟩⟩
    | _ => exact h
  have hconsumer : ∀ pc, (s.consumerChoice pc).Ordered := by
    intro pc
    unfold consumerChoice
    cases hpc : s.consumer with
    | idle => exact h.of_eq rfl rfl rfl id id
    | _ => exact h
  cases action with
  | handle io | finish | fail message => exact hparser _ _ rfl rfl
  | parser => exact h.parserStep
  | call op | destroy => exact hconsumer _
  | consumer => exact h.consumerStep
  | wake => exact h.notifyOne

/-- For every interleaving, what has been popped is a prefix of what has been handled, and the
queue is within its limit, or one above it behind a cancellation. -/
theorem handOver_bounded (actions : List (Action E)) :
    (run step actions init).popped <+: (run step actions init).handled ∧
      ((run step actions init).queue.length ≤ QUEUE_LIMIT ∨
        (run step actions init).cancelRequested = true ∧
          (run step actions init).queue.length ≤ QUEUE_LIMIT + 1) := by
  have hinv : (run step actions (init : State E)).Slots ∧ (run step actions init).Ordered := by
    refine run_invariant (C := fun _ _ => True) (P := fun s : State E => s.Slots ∧ s.Ordered)
      (fun action s _ h => ⟨h.1.step action, h.2.step action⟩) ?_ ⟨Slots.init, Ordered.init⟩
    exact meets_of_forall (C := fun _ => True) (fun _ _ => trivial) _
  obtain ⟨hslots, skipped, hsplit, -⟩ := hinv
  refine ⟨?_, ?_⟩
  · rw [hsplit, List.append_assoc, List.append_assoc]
    exact List.prefix_append _ _
  · have hbound := hslots.bound
    by_cases hposts : 1 ≤ (run step actions (init : State E)).posts
    · exact Or.inr ⟨hslots.cancelled (Or.inl hposts), by omega⟩
    · exact Or.inl (by omega)

end State

end Octf.Parser.ParsedIoTraceEventQueue
