import Octf.Interface.MissingCalls

/-! The balance of a job: it is kept exactly by the steps that lose no call silently, and at the
end of the job it is what the two counters report. -/
namespace Octf.Interface
open Foundation

namespace TraceJob

variable {T : Type} [DecidableEq T] {s : TraceJob T} {thread : T} (memoryPoolSize : ℕ)

/-- Every such call is counted as lost, and the job does not end with events in the ring. -/
structure Balanced (s : TraceJob T) : Prop where
  missing : s.missing = s.lost
  valid : s.valid = true
  drained : s.consumer = .ended .complete → s.events = []

structure Sound (s : TraceJob T) : Prop where
  held : s.consumer = .getRdBuffer ∨ s.consumer = .serialize ∨ s.consumer = .releaseRdBuffer →
    s.events ≠ []
  nonneg : s.valid = true ∨ s.consumer ≠ .ended .error → 0 ≤ s.missing ∧ s.lost ≤ s.missing

/-! ### Which steps keep the balance -/

/-- The step loses no call silently. -/
def Counted (action : JobAction T) (s : TraceJob T) : Prop :=
  match action with
  | .thread thread => match s.producers thread with
    | .readStop traceSize => 0 < traceSize → s.stop = false ∧ traceSize ≤ memoryPoolSize
    | .moveWrPtr _ => s.consumer ≠ .ended .complete
    | .incLost => s.lost ≠ 2 ^ 63 - 1
    | .integrityCheck size pos => intact memoryPoolSize size pos = true
    | _ => True
  | .consumer serialized => match s.consumer with
    | .getRdBuffer => s.finish = true → s.HeadReady
    | .serialize => serialized = true → s.traceCount ≠ 2 ^ 63 - 1
    | _ => True
  | _ => True

theorem turn_moveWrPtr {size : ℕ} (hpc : s.producers thread = .moveWrPtr size) :
    s.turn memoryPoolSize thread =
      (s.append memoryPoolSize size).goTo thread (.unlockWr size (some s.wrPos)) := by
  unfold turn
  rw [hpc]

theorem turn_incLost (hpc : s.producers thread = .incLost) :
    s.turn memoryPoolSize thread =
      ({ s with lost := incInt64 s.lost } : TraceJob T).ret thread (.error .ENOSPC) := by
  unfold turn
  rw [hpc]

theorem turn_integrityCheck {size pos : ℕ} (hpc : s.producers thread = .integrityCheck size pos)
    (hbad : intact memoryPoolSize size pos = false) :
    s.turn memoryPoolSize thread =
      ({ s with valid := false } : TraceJob T).ret thread (.error .EINVAL) := by
  unfold turn
  simp only [hpc, hbad, Bool.false_eq_true, if_false]

omit [DecidableEq T] in
theorem Balanced.of_frame {s' : TraceJob T} (h : s.Balanced) (hframe : s.Frame s')
    (hmissing : s'.missing = s.missing) : s'.Balanced where
  missing := by rw [hmissing, hframe.lost, h.missing]
  valid := by rw [hframe.valid, h.valid]
  drained hend := by
    have hend' := (hframe.consumer _ (by decide) (by decide)).mp hend
    exact hframe.events.mpr (h.drained hend')

/-- A call that comes to nothing must be counted as lost. -/
theorem balanced_turn_fails [Finite T] (hs : s.Balanced) (h : s.Fails memoryPoolSize thread)
    (htouches : ¬ s.Touches memoryPoolSize thread) :
    ¬ (s.turn memoryPoolSize thread).Balanced := by
  intro hnext
  have hmissing := hnext.missing
  rw [missing_turn_fails memoryPoolSize h, (frame_turn memoryPoolSize htouches).lost,
    hs.missing] at hmissing
  omega

theorem balanced_incLost [Finite T] (hs : s.Balanced) (hpc : s.producers thread = .incLost) :
    (s.turn memoryPoolSize thread).Balanced ↔ s.lost ≠ 2 ^ 63 - 1 := by
  have hfails : s.Fails memoryPoolSize thread := by
    unfold Fails
    rw [hpc]
    trivial
  have hmissing := missing_turn_fails memoryPoolSize hfails
  have hturn := turn_incLost memoryPoolSize hpc
  have hlost : (s.turn memoryPoolSize thread).lost = incInt64 s.lost := by rw [hturn]; rfl
  have hbalance : s.missing = s.lost := hs.missing
  constructor
  · intro hnext hmax
    have hnext' := hnext.missing
    rw [hlost, hmissing, hbalance, incInt64, if_pos hmax] at hnext'
    omega
  · intro hmax
    refine ⟨?_, ?_, ?_⟩
    · rw [hmissing, hlost, hbalance, incInt64, if_neg hmax]
    · rw [hturn]
      exact hs.valid
    · rw [hturn]
      exact hs.drained

theorem balanced_moveWrPtr [Finite T] (hs : s.Balanced) {size : ℕ}
    (hpc : s.producers thread = .moveWrPtr size) :
    (s.turn memoryPoolSize thread).Balanced ↔ s.consumer ≠ .ended .complete := by
  have hfails : ¬ s.Fails memoryPoolSize thread := by
    unfold Fails
    rw [hpc]
    exact not_false
  have hmissing := missing_turn memoryPoolSize hfails
  have hturn := turn_moveWrPtr memoryPoolSize hpc
  constructor
  · intro hnext hend
    have hdrained := hnext.drained (by rw [hturn]; exact hend)
    rw [hturn] at hdrained
    exact absurd hdrained (List.append_ne_nil_of_right_ne_nil _ (List.cons_ne_nil _ _))
  · intro hend
    refine ⟨?_, ?_, ?_⟩
    · rw [hmissing, hturn]
      exact hs.missing
    · rw [hturn]
      exact hs.valid
    · rw [hturn]
      exact fun hend' => absurd hend' hend

theorem balanced_integrityCheck [Finite T] (hs : s.Balanced) {size pos : ℕ}
    (hpc : s.producers thread = .integrityCheck size pos) :
    (s.turn memoryPoolSize thread).Balanced ↔ intact memoryPoolSize size pos = true := by
  constructor
  · intro hnext
    by_contra hbad
    have hvalid := hnext.valid
    rw [turn_integrityCheck memoryPoolSize hpc (Bool.eq_false_of_not_eq_true hbad)] at hvalid
    cases hvalid
  · intro hintact
    have htouches : ¬ s.Touches memoryPoolSize thread := by
      unfold Touches
      simp only [hpc, hintact, Bool.true_eq_false, not_false_eq_true]
    exact hs.of_frame (frame_turn memoryPoolSize htouches)
      (missing_turn memoryPoolSize (by unfold Fails; rw [hpc]; exact not_false))

theorem balanced_readStop [Finite T] (hs : s.Balanced) {traceSize : ℕ}
    (hpc : s.producers thread = .readStop traceSize) :
    (s.turn memoryPoolSize thread).Balanced ↔
      (0 < traceSize → s.stop = false ∧ traceSize ≤ memoryPoolSize) := by
  have htouches : ¬ s.Touches memoryPoolSize thread := by
    unfold Touches
    rw [hpc]
    exact not_false
  have hfails : s.Fails memoryPoolSize thread ↔
      0 < traceSize ∧ (s.stop = true ∨ memoryPoolSize < traceSize) := by
    unfold Fails
    rw [hpc]
  constructor
  · intro hnext hsize
    have hgoes : ¬ s.Fails memoryPoolSize thread := fun hfail =>
      balanced_turn_fails memoryPoolSize hs hfail htouches hnext
    rw [hfails] at hgoes
    push Not at hgoes
    obtain ⟨hstop, hfit⟩ := hgoes hsize
    exact ⟨Bool.eq_false_of_not_eq_true hstop, hfit⟩
  · intro hgoes
    refine hs.of_frame (frame_turn memoryPoolSize htouches) (missing_turn memoryPoolSize ?_)
    rw [hfails]
    rintro ⟨hsize, hfail⟩
    obtain ⟨hstop, hfit⟩ := hgoes hsize
    rcases hfail with hfail | hfail
    · rw [hstop] at hfail
      cases hfail
    · exact absurd hfit (not_le.mpr hfail)

theorem balanced_turn [Finite T] (hs : s.Balanced) :
    (s.turn memoryPoolSize thread).Balanced ↔ s.Counted memoryPoolSize (.thread thread) := by
  simp only [Counted]
  cases hpc : s.producers thread with
  | incLost => exact balanced_incLost memoryPoolSize hs hpc
  | moveWrPtr size => exact balanced_moveWrPtr memoryPoolSize hs hpc
  | integrityCheck size pos => exact balanced_integrityCheck memoryPoolSize hs hpc
  | readStop traceSize => exact balanced_readStop memoryPoolSize hs hpc
  | _ =>
    refine iff_of_true (hs.of_frame (frame_turn memoryPoolSize ?_)
      (missing_turn memoryPoolSize ?_)) trivial
    · unfold Touches
      rw [hpc]
      exact not_false
    · unfold Fails
      rw [hpc]
      simp [hs.valid]

/-! ### A step of the job's thread -/

omit [DecidableEq T] in
theorem missing_place {place : ConsumerPc} (finish : Bool)
    (h : place = .releaseRdBuffer ↔ s.consumer = .releaseRdBuffer) :
    ({ s with finish := finish, consumer := place } : TraceJob T).missing = s.missing := by
  unfold missing waiting
  simp only [h]

omit [DecidableEq T] in
/-- The job's thread goes on and reads no event. -/
theorem Balanced.place (hs : s.Balanced) (place : ConsumerPc) (finish : Bool)
    (hread : place ≠ .releaseRdBuffer) (hread' : s.consumer ≠ .releaseRdBuffer)
    (hend : place ≠ .ended .complete) :
    ({ s with finish := finish, consumer := place } : TraceJob T).Balanced where
  missing := (missing_place finish (iff_of_false hread hread')).trans hs.missing
  valid := hs.valid
  drained h := absurd h hend

omit [DecidableEq T] in
theorem balanced_loopEnd (hs : s.Balanced) (hread : s.consumer ≠ .releaseRdBuffer) :
    s.loopEnd.Balanced ↔ (s.finish = true → s.events = []) := by
  unfold loopEnd
  by_cases hfinish : s.finish = true
  · rw [if_pos hfinish]
    constructor
    · exact fun hnext _ => hnext.drained rfl
    · intro hempty
      refine ⟨?_, hs.valid, fun _ => hempty hfinish⟩
      exact (missing_place s.finish (iff_of_false (by simp) hread)).trans hs.missing
  · rw [if_neg hfinish]
    exact iff_of_true (hs.place _ s.finish (by simp) hread (by simp)) fun h => absurd h hfinish

omit [DecidableEq T] in
theorem missing_serialize (hpc : s.consumer = .serialize) :
    ({ s with traceCount := incInt64 s.traceCount, consumer := .releaseRdBuffer } :
        TraceJob T).missing = s.missing + 1 - (incInt64 s.traceCount - s.traceCount) := by
  unfold missing waiting
  rw [if_pos rfl, if_neg (by rw [hpc]; simp)]
  dsimp only
  omega

omit [DecidableEq T] in
theorem missing_release (hsound : s.Sound) (hpc : s.consumer = .releaseRdBuffer) :
    ({ s.release memoryPoolSize with consumer := .isEmpty } : TraceJob T).missing =
      s.missing := by
  have hpos : 0 < s.events.length :=
    List.length_pos_of_ne_nil (hsound.held (Or.inr (Or.inr hpc)))
  unfold missing waiting release
  rw [if_pos hpc, if_neg (by simp)]
  simp only [List.length_tail]
  omega

omit [DecidableEq T] in
theorem balanced_consume (hs : s.Balanced) (hsound : s.Sound) (serialized : Bool) :
    (s.consume memoryPoolSize serialized).Balanced ↔
      s.Counted memoryPoolSize (.consumer serialized) := by
  have hbalance := hs.missing
  simp only [Counted]
  unfold consume
  cases hpc : s.consumer with
  | wait | woken =>
    exact iff_of_true (hs.place _ _ (by simp) (by rw [hpc]; simp) (by simp)) trivial
  | blocked | ended _ => exact iff_of_true hs trivial
  | isEmpty =>
    refine iff_of_true ?_ trivial
    by_cases hempty : s.events = []
    · simp only [if_neg (fun h : s.valid = true ∧ s.events ≠ [] => h.2 hempty)]
      exact (balanced_loopEnd hs (by rw [hpc]; simp)).mpr fun _ => hempty
    · simp only [if_pos (And.intro hs.valid hempty)]
      exact hs.place .getRdBuffer s.finish (by simp) (by rw [hpc]; simp) (by simp)
  | getRdBuffer =>
    simp only [if_neg (show ¬ (!s.valid) = true by rw [hs.valid]; simp)]
    by_cases hready : s.HeadReady
    · simp only [if_pos hready]
      exact iff_of_true (hs.place .serialize s.finish (by simp) (by rw [hpc]; simp) (by simp))
        fun _ => hready
    · simp only [if_neg hready]
      have hevents := hsound.held (Or.inl hpc)
      rw [balanced_loopEnd hs (by rw [hpc]; simp)]
      simp only [hevents, hready]
  | serialize =>
    cases serialized with
    | false =>
      exact iff_of_true (hs.place (.ended .error) s.finish (by simp) (by rw [hpc]; simp) (by simp))
        (by simp)
    | true =>
      have hmissing := missing_serialize hpc
      simp only [if_true, forall_const]
      constructor
      · intro hnext hmax
        have hnext' : _ = s.lost := hnext.missing
        rw [hmissing, hbalance, incInt64, if_pos hmax, hmax] at hnext'
        omega
      · intro hmax
        refine ⟨?_, hs.valid, fun h => by cases h⟩
        rw [hmissing, hbalance, incInt64, if_neg hmax]
        change s.lost + 1 - _ = s.lost
        omega
  | releaseRdBuffer =>
    simp only [if_pos hs.valid]
    refine iff_of_true ⟨?_, hs.valid, fun h => by cases h⟩ trivial
    exact (missing_release memoryPoolSize hsound hpc).trans hbalance

/-! ### Soundness along a run -/

omit [DecidableEq T] in
/-- Without calls on their way. -/
theorem missing_of_idle (hidle : ∀ thread, s.Idle thread) :
    s.missing = s.calls - s.traceCount - s.waiting := by
  have hnone : threadCount s.producers ProducerPc.Open = 0 := by
    have hempty : {thread | (s.producers thread).Open} = ∅ := by
      ext thread
      obtain ⟨result, hpc⟩ := hidle thread
      simp [hpc, ProducerPc.Open]
    rw [threadCount, hempty, Set.ncard_empty]
  unfold missing
  rw [hnone]
  omega

omit [DecidableEq T] in
theorem missing_init : (TraceJob.init : TraceJob T).missing = 0 :=
  missing_of_idle fun _ => ⟨_, rfl⟩

omit [DecidableEq T] in
theorem Sound.init : (TraceJob.init : TraceJob T).Sound where
  held h := by rcases h with h | h | h <;> cases h
  nonneg _ := by
    rw [missing_init]
    exact ⟨le_rfl, le_rfl⟩

/-- What a step of a thread keeps: no lost call reappears and nothing is read. -/
structure Advances (s s' : TraceJob T) : Prop where
  valid : s'.valid = true → s.valid = true
  consumer : ∀ place, place ≠ .blocked → place ≠ .woken →
    (s'.consumer = place ↔ s.consumer = place)
  events : s.events ≠ [] → s'.events ≠ []
  missing : s.missing ≤ s'.missing
  lost : s'.lost - s'.missing ≤ s.lost - s.missing

omit [DecidableEq T] in
theorem Sound.advance {s' : TraceJob T} (h : s.Sound) (hstep : s.Advances s') : s'.Sound where
  held hplace := by
    rw [hstep.consumer _ (by simp) (by simp), hstep.consumer _ (by simp) (by simp),
      hstep.consumer _ (by simp) (by simp)] at hplace
    exact hstep.events (h.held hplace)
  nonneg hlive := by
    rw [ne_eq, hstep.consumer _ (by simp) (by simp)] at hlive
    obtain ⟨hnonneg, hle⟩ := h.nonneg (hlive.imp_left hstep.valid)
    have hmissing := hstep.missing
    have hlost := hstep.lost
    omega

omit [DecidableEq T] in
/-- A balance that is lost stays lost. -/
theorem Balanced.of_advances {s' : TraceJob T} (hnext : s'.Balanced) (h : s.Sound)
    (hstep : s.Advances s') : s.Balanced where
  missing := by
    obtain ⟨-, hle⟩ := h.nonneg (Or.inl (hstep.valid hnext.valid))
    have hlost := hstep.lost
    have hnext' := hnext.missing
    omega
  valid := hstep.valid hnext.valid
  drained hend := by
    by_contra hevents
    exact hstep.events hevents (hnext.drained ((hstep.consumer _ (by simp) (by simp)).mpr hend))

theorem missing_le_turn [Finite T] (thread : T) :
    s.missing ≤ (s.turn memoryPoolSize thread).missing := by
  by_cases hfails : s.Fails memoryPoolSize thread
  · rw [missing_turn_fails memoryPoolSize hfails]
    omega
  · rw [missing_turn memoryPoolSize hfails]

theorem advances_touches [Finite T] (htouches : s.Touches memoryPoolSize thread) :
    s.Advances (s.turn memoryPoolSize thread) := by
  have hgrows := missing_le_turn memoryPoolSize (s := s) thread
  unfold Touches at htouches
  cases hpc : s.producers thread with
  | moveWrPtr size =>
    rw [turn_moveWrPtr memoryPoolSize hpc] at hgrows ⊢
    refine ⟨id, fun _ _ _ => Iff.rfl, fun _ => ?_, hgrows, Int.sub_le_sub_left hgrows _⟩
    exact List.append_ne_nil_of_right_ne_nil _ (List.cons_ne_nil _ _)
  | incLost =>
    have hfails : s.Fails memoryPoolSize thread := by
      unfold Fails
      rw [hpc]
      trivial
    have hmissing := missing_turn_fails memoryPoolSize hfails
    rw [turn_incLost memoryPoolSize hpc] at hgrows hmissing ⊢
    refine ⟨id, fun _ _ _ => Iff.rfl, id, hgrows, ?_⟩
    have hlost := incInt64_le s.lost
    rw [hmissing]
    change incInt64 s.lost - _ ≤ _
    omega
  | integrityCheck size pos =>
    rw [hpc] at htouches
    rw [turn_integrityCheck memoryPoolSize hpc htouches] at hgrows ⊢
    exact ⟨(fun hvalid => nomatch hvalid), fun _ _ _ => Iff.rfl, id, hgrows,
      Int.sub_le_sub_left hgrows _⟩
  | _ => simp only [hpc] at htouches

theorem advances_turn [Finite T] (thread : T) : s.Advances (s.turn memoryPoolSize thread) := by
  by_cases htouches : s.Touches memoryPoolSize thread
  · exact advances_touches memoryPoolSize htouches
  · have hframe := frame_turn memoryPoolSize htouches
    have hgrows := missing_le_turn memoryPoolSize (s := s) thread
    refine ⟨?_, hframe.consumer, mt hframe.events.mp, hgrows, ?_⟩
    · rw [hframe.valid]
      exact id
    · rw [hframe.lost]
      omega

omit [DecidableEq T] in
theorem Sound.place (h : s.Sound) (place : ConsumerPc) (finish : Bool)
    (hread : place ≠ .releaseRdBuffer) (hread' : s.consumer ≠ .releaseRdBuffer)
    (hlive : s.consumer ≠ .ended .error)
    (hheld : place = .getRdBuffer ∨ place = .serialize → s.events ≠ []) :
    ({ s with finish := finish, consumer := place } : TraceJob T).Sound where
  held hplace := by
    rw [← or_assoc, or_iff_left hread] at hplace
    exact hheld hplace
  nonneg _ := by
    rw [missing_place finish (iff_of_false hread hread')]
    exact h.nonneg (Or.inr hlive)

omit [DecidableEq T] in
theorem Sound.loopEnd (h : s.Sound) (hread : s.consumer ≠ .releaseRdBuffer)
    (hlive : s.consumer ≠ .ended .error) : s.loopEnd.Sound := by
  refine h.place _ s.finish ?_ hread hlive fun hheld => ?_
  · split_ifs <;> simp
  · split_ifs at hheld <;> simp at hheld

omit [DecidableEq T] in
theorem Sound.consume (h : s.Sound) (serialized : Bool) :
    (s.consume memoryPoolSize serialized).Sound := by
  unfold TraceJob.consume
  cases hpc : s.consumer with
  | wait | woken =>
    exact h.place _ _ (by simp) (by rw [hpc]; simp) (by rw [hpc]; simp) (by simp)
  | blocked | ended _ => exact h
  | isEmpty =>
    by_cases hready : s.valid = true ∧ s.events ≠ []
    · simp only [if_pos hready]
      exact h.place .getRdBuffer s.finish (by simp) (by rw [hpc]; simp) (by rw [hpc]; simp)
        fun _ => hready.2
    · simp only [if_neg hready]
      exact h.loopEnd (by rw [hpc]; simp) (by rw [hpc]; simp)
  | getRdBuffer =>
    have hevents := h.held (Or.inl hpc)
    simp only
    split_ifs
    · exact h.place (.ended .error) s.finish (by simp) (by rw [hpc]; simp) (by rw [hpc]; simp)
        fun _ => hevents
    · exact h.place .serialize s.finish (by simp) (by rw [hpc]; simp) (by rw [hpc]; simp)
        fun _ => hevents
    · exact h.loopEnd (by rw [hpc]; simp) (by rw [hpc]; simp)
  | serialize =>
    have hevents := h.held (Or.inr (Or.inl hpc))
    cases serialized with
    | false =>
      exact h.place (.ended .error) s.finish (by simp) (by rw [hpc]; simp) (by rw [hpc]; simp)
        fun _ => hevents
    | true =>
      refine ⟨fun _ => hevents, fun _ => ?_⟩
      have hmissing := missing_serialize hpc
      have hinc := incInt64_le s.traceCount
      obtain ⟨hnonneg, hle⟩ := h.nonneg (Or.inr (by rw [hpc]; simp))
      simp only [if_true]
      omega
  | releaseRdBuffer =>
    by_cases hvalid : s.valid = true
    · simp only [if_pos hvalid]
      refine ⟨fun hplace => by simp at hplace, fun _ => ?_⟩
      rw [missing_release memoryPoolSize h hpc]
      exact h.nonneg (Or.inr (by rw [hpc]; simp))
    · simp only [if_neg hvalid]
      exact ⟨fun hplace => by simp at hplace, fun hlive => by simp [hvalid] at hlive⟩

omit [DecidableEq T] in
/-- Reading never makes a call reappear. -/
theorem missing_le_consume (h : s.Sound) (hvalid : s.valid = true) (serialized : Bool) :
    s.missing ≤ (s.consume memoryPoolSize serialized).missing := by
  unfold TraceJob.consume
  cases hpc : s.consumer with
  | wait | woken => exact (missing_place _ (iff_of_false (by simp) (by rw [hpc]; simp))).ge
  | blocked | ended _ => exact le_rfl
  | isEmpty | getRdBuffer =>
    simp only
    unfold TraceJob.loopEnd
    split_ifs
    all_goals exact (missing_place _ (iff_of_false (by simp) (by rw [hpc]; simp))).ge
  | serialize =>
    have hinc := incInt64_le s.traceCount
    cases serialized with
    | false => exact (missing_place _ (iff_of_false (by simp) (by rw [hpc]; simp))).ge
    | true =>
      simp only [if_true, missing_serialize hpc]
      omega
  | releaseRdBuffer =>
    simp only [if_pos hvalid]
    exact (missing_release memoryPoolSize h hpc).ge

omit [DecidableEq T] in
theorem valid_consume (serialized : Bool) :
    (s.consume memoryPoolSize serialized).valid = s.valid := by
  unfold TraceJob.consume TraceJob.loopEnd
  cases s.consumer
  all_goals
    simp only
    try split_ifs
    all_goals rfl

omit [DecidableEq T] in
theorem lost_consume (serialized : Bool) :
    (s.consume memoryPoolSize serialized).lost = s.lost := by
  unfold TraceJob.consume TraceJob.loopEnd
  cases s.consumer
  all_goals
    simp only
    try split_ifs
    all_goals rfl

omit [DecidableEq T] in
theorem Balanced.of_consume {serialized : Bool}
    (hnext : (s.consume memoryPoolSize serialized).Balanced) (h : s.Sound) : s.Balanced := by
  have hvalid : s.valid = true := by
    rw [← valid_consume memoryPoolSize serialized]
    exact hnext.valid
  refine ⟨?_, hvalid, fun hend => ?_⟩
  · obtain ⟨-, hle⟩ := h.nonneg (Or.inl hvalid)
    have hgrows := missing_le_consume memoryPoolSize h hvalid serialized
    have hmissing := hnext.missing
    rw [lost_consume] at hmissing
    omega
  · have hstay : s.consume memoryPoolSize serialized = s := by
      unfold TraceJob.consume
      rw [hend]
    rw [hstay] at hnext
    exact hnext.drained hend

omit [DecidableEq T] in
theorem Balanced.of_place {place : ConsumerPc} {finish : Bool}
    (hnext : ({ s with finish := finish, consumer := place } : TraceJob T).Balanced)
    (hread : place ≠ .releaseRdBuffer) (hread' : s.consumer ≠ .releaseRdBuffer)
    (hlive : s.consumer ≠ .ended .complete) : s.Balanced where
  missing := (missing_place finish (iff_of_false hread hread')).symm.trans hnext.missing
  valid := hnext.valid
  drained hend := absurd hend hlive

/-! ### Runs -/

theorem missing_call [Finite T] {result : Except Trace.Errno Unit} (traceSize : Fin (2 ^ 32))
    (hpc : s.producers thread = .returned result) :
    (s.call thread traceSize).missing = s.missing := by
  unfold call
  by_cases hsize : traceSize = 0
  · rw [if_pos hsize, hsize]
    exact missing_goTo_same hpc (iff_of_false (lt_irrefl 0) not_false)
  · have hopen : (ProducerPc.readStop traceSize).Open := Nat.pos_of_ne_zero (by simpa using hsize)
    have hclosed : ¬ (s.producers thread).Open := by
      rw [hpc]
      exact not_false
    have hcount := threadCount_update_enter hopen hclosed
    rw [if_neg hsize]
    unfold missing
    change ((s.calls + 1 : ℕ) : ℤ) - s.traceCount - s.waiting -
      threadCount (Function.update s.producers thread _) ProducerPc.Open = _
    rw [hcount]
    push_cast
    omega

/-- The balance does not notice that a call begins. -/
theorem frame_call [Finite T] (thread : T) (traceSize : Fin (2 ^ 32)) (h : s.Idle thread) :
    s.Frame (s.call thread traceSize) ∧ (s.call thread traceSize).missing = s.missing := by
  obtain ⟨result, hpc⟩ := h
  exact ⟨.of_eq rfl rfl rfl rfl, missing_call traceSize hpc⟩

theorem frame_stop {thread : T} (h : s.Idle thread) :
    s.Frame (s.goTo thread .setStop) ∧ (s.goTo thread .setStop).missing = s.missing := by
  obtain ⟨result, hpc⟩ := h
  exact ⟨.of_eq rfl rfl rfl rfl, missing_goTo_same hpc Iff.rfl⟩

omit [DecidableEq T] in
theorem Frame.advances {s' : TraceJob T} (h : s.Frame s') (hmissing : s'.missing = s.missing) :
    s.Advances s' where
  valid hvalid := h.valid ▸ hvalid
  consumer := h.consumer
  events := mt h.events.mp
  missing := hmissing.ge
  lost := by rw [hmissing, h.lost]

theorem Sound.step [Finite T] (h : s.Sound) (action : JobAction T) :
    (s.step memoryPoolSize action).Sound := by
  unfold TraceJob.step
  cases action with
  | pushTrace thread traceSize =>
    simp only
    split_ifs with hidle
    · obtain ⟨hframe, hmissing⟩ := frame_call thread traceSize hidle
      exact h.advance (hframe.advances hmissing)
    · exact h
  | stop thread =>
    simp only
    split_ifs with hidle
    · obtain ⟨hframe, hmissing⟩ := frame_stop hidle
      exact h.advance (hframe.advances hmissing)
    · exact h
  | thread thread => exact h.advance (advances_turn memoryPoolSize thread)
  | consumer serialized => exact h.consume memoryPoolSize serialized
  | timeOut =>
    simp only
    split_ifs with hwait
    · have hwait' : ∀ place, s.consumer = place → place = .blocked ∨ place = .woken := by
        rintro _ rfl
        exact hwait
      exact h.place .isEmpty true (by simp) (fun hread => by simpa using hwait' _ hread)
        (fun hend => by simpa using hwait' _ hend) (by simp)
    · exact h
  | spurious =>
    simp only
    split_ifs with hwait
    · exact h.place .woken s.finish (by simp) (by rw [hwait]; simp) (by rw [hwait]; simp) (by simp)
    · exact h

omit [DecidableEq T] in
/-- The wait ends. -/
theorem balanced_wake (hwait : s.consumer = .blocked ∨ s.consumer = .woken) (place : ConsumerPc)
    (finish : Bool) (hread : place ≠ .releaseRdBuffer) (hend : place ≠ .ended .complete) :
    ({ s with finish := finish, consumer := place } : TraceJob T).Balanced ↔ s.Balanced := by
  have hread' : s.consumer ≠ .releaseRdBuffer := by rcases hwait with h | h <;> simp [h]
  have hend' : s.consumer ≠ .ended .complete := by rcases hwait with h | h <;> simp [h]
  exact ⟨fun hnext => hnext.of_place hread hread' hend', fun h => h.place _ _ hread hread' hend⟩

theorem Balanced.of_step [Finite T] (h : s.Sound) (action : JobAction T)
    (hnext : (s.step memoryPoolSize action).Balanced) : s.Balanced := by
  unfold TraceJob.step at hnext
  cases action with
  | pushTrace thread traceSize =>
    by_cases hidle : s.Idle thread
    · simp only [if_pos hidle] at hnext
      obtain ⟨hframe, hmissing⟩ := frame_call thread traceSize hidle
      exact hnext.of_advances h (hframe.advances hmissing)
    · simpa only [if_neg hidle] using hnext
  | stop thread =>
    by_cases hidle : s.Idle thread
    · simp only [if_pos hidle] at hnext
      obtain ⟨hframe, hmissing⟩ := frame_stop hidle
      exact hnext.of_advances h (hframe.advances hmissing)
    · simpa only [if_neg hidle] using hnext
  | thread thread => exact hnext.of_advances h (advances_turn memoryPoolSize thread)
  | consumer serialized => exact hnext.of_consume memoryPoolSize h
  | timeOut =>
    by_cases hwait : s.consumer = .blocked ∨ s.consumer = .woken
    · simp only [if_pos hwait] at hnext
      exact (balanced_wake hwait .isEmpty true (by simp) (by simp)).mp hnext
    · simpa only [if_neg hwait] using hnext
  | spurious =>
    by_cases hwait : s.consumer = .blocked
    · simp only [if_pos hwait] at hnext
      exact (balanced_wake (Or.inl hwait) .woken s.finish (by simp) (by simp)).mp hnext
    · simpa only [if_neg hwait] using hnext

theorem balanced_step [Finite T] (h : s.Sound) (hs : s.Balanced) (action : JobAction T) :
    (s.step memoryPoolSize action).Balanced ↔ s.Counted memoryPoolSize action := by
  unfold TraceJob.step
  cases action with
  | pushTrace thread traceSize =>
    refine iff_of_true ?_ trivial
    simp only
    split_ifs with hidle
    · obtain ⟨hframe, hmissing⟩ := frame_call thread traceSize hidle
      exact hs.of_frame hframe hmissing
    · exact hs
  | stop thread =>
    refine iff_of_true ?_ trivial
    simp only
    split_ifs with hidle
    · obtain ⟨hframe, hmissing⟩ := frame_stop hidle
      exact hs.of_frame hframe hmissing
    · exact hs
  | thread thread => exact balanced_turn memoryPoolSize hs
  | consumer serialized => exact balanced_consume memoryPoolSize hs h serialized
  | timeOut =>
    refine iff_of_true ?_ trivial
    simp only
    split_ifs with hwait
    · exact (balanced_wake hwait .isEmpty true (by simp) (by simp)).mpr hs
    · exact hs
  | spurious =>
    refine iff_of_true ?_ trivial
    simp only
    split_ifs with hwait
    · exact (balanced_wake (Or.inl hwait) .woken s.finish (by simp) (by simp)).mpr hs
    · exact hs

omit [DecidableEq T] in
theorem Balanced.init : (TraceJob.init : TraceJob T).Balanced where
  missing := missing_init
  valid := rfl
  drained h := by cases h

/-- Every call with data is serialized or reported as dropped. -/
def Accounted (s : TraceJob T) : Prop := s.calls = s.getTraceCount + s.getDroppedTraceCount

omit [DecidableEq T] in
/-- At the end of the job, with no call on its way, the reports are the balance. -/
theorem accounted_iff_balanced (h : s.Sound) (hend : s.consumer = .ended .complete)
    (hidle : ∀ thread, s.Idle thread) : s.Accounted ↔ s.Balanced := by
  obtain ⟨hnonneg, hle⟩ := h.nonneg (Or.inr (by simp [hend]))
  have hmissing : s.missing = s.calls - s.traceCount - s.events.length := by
    rw [missing_of_idle hidle, waiting, if_neg (by simp [hend]), sub_zero]
  unfold Accounted getTraceCount getDroppedTraceCount negEinval
  constructor
  · intro hall
    have hvalid : s.valid = true := by
      by_contra hvalid
      rw [if_neg hvalid] at hall
      omega
    rw [if_pos hvalid] at hall
    have hempty : s.events.length = 0 := by omega
    exact ⟨by omega, hvalid, fun _ => List.eq_nil_of_length_eq_zero hempty⟩
  · intro hs
    have hbalance := hs.missing
    rw [if_pos hs.valid]
    rw [hs.drained hend, List.length_nil] at hmissing
    omega

/-- A job that has ended without error has accounted for every call exactly when no step has
lost one silently. -/
theorem accounted_iff [Finite T] {actions : List (JobAction T)}
    (hend : (run (step memoryPoolSize) actions init).consumer = .ended .complete)
    (hidle : ∀ thread, (run (step memoryPoolSize) actions init).Idle thread) :
    (run (step memoryPoolSize) actions init).Accounted ↔
      Meets (step memoryPoolSize) (Counted memoryPoolSize) actions init := by
  have hsound : (run (step memoryPoolSize) actions (init : TraceJob T)).Sound := by
    refine run_invariant (C := fun _ _ => True) (fun action s _ h => h.step memoryPoolSize action)
      (meets_of_forall (fun _ _ => trivial) _) Sound.init
  rw [accounted_iff_balanced hsound hend hidle]
  exact run_iff_meets (I := Sound) (P := Balanced) (fun action s h => h.step memoryPoolSize action)
    (fun action s h hnext => hnext.of_step memoryPoolSize h action)
    (fun action s h hs => balanced_step memoryPoolSize h hs action) Sound.init Balanced.init

/-- One trace of four bytes, pushed and then drained when the time is over. -/
def onePush : List (JobAction Unit) :=
  .pushTrace () ⟨4, by decide⟩ :: List.replicate 9 (.thread ()) ++
    .consumer true :: .timeOut :: List.replicate 5 (.consumer true)

theorem accounted_iff_onePush :
    (run (step 32768) onePush init).Accounted ∧ Meets (step 32768) (Counted 32768) onePush init :=
  have hall : (run (step 32768) onePush init).Accounted := by
    unfold Accounted
    decide
  ⟨hall, (accounted_iff 32768 (by decide) (by decide)).mp hall⟩

/-- A trace larger than the pool, one pushed after the stop, and one that is still being copied
when the ring is drained for the last time. -/
def silentLosses : List (List (JobAction Unit)) :=
  [[.pushTrace () ⟨40000, by decide⟩, .thread (), .consumer true, .timeOut, .consumer true],
    [.stop (), .thread (), .thread (), .pushTrace () ⟨4, by decide⟩, .thread (), .consumer true,
      .timeOut, .consumer true],
    .pushTrace () ⟨4, by decide⟩ :: List.replicate 6 (.thread ()) ++
      [.consumer true, .timeOut, .consumer true, .consumer true, .thread (), .thread (),
        .thread ()]]

theorem not_accounted_silentLosses : silentLosses.Forall fun actions =>
    (run (step 32768) actions init).consumer = .ended .complete ∧
      (∀ thread, (run (step 32768) actions init).Idle thread) ∧
      ¬ (run (step 32768) actions init).Accounted := by
  unfold Accounted
  decide

end TraceJob

end Octf.Interface
