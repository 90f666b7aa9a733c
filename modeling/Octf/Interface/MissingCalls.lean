import Octf.Foundation.ThreadCount
import Octf.Interface.TraceJob

/-! Where the calls of `pushTrace` go. A call is serialized, or in the ring, or still open, or
it has come to nothing; a step of a thread moves at most its own call. -/
namespace Octf.Interface
open Foundation

/-- A call with data that is neither in the ring nor decided. -/
def ProducerPc.Open : ProducerPc → Prop
  | .readStop traceSize => 0 < traceSize
  | .checkValid _ | .tryLockWr _ _ | .findSpace _ | .moveWrPtr _ | .unlockWr _ none | .incLost =>
      True
  | _ => False

namespace TraceJob

variable {T : Type} [DecidableEq T] {s : TraceJob T} {pc : ProducerPc} {thread : T}
  (memoryPoolSize : ℕ)

/-- Events in the ring that are not serialized. -/
def waiting (s : TraceJob T) : ℤ :=
  s.events.length - if s.consumer = .releaseRdBuffer then 1 else 0

/-- Calls that have come to nothing. -/
noncomputable def missing (s : TraceJob T) : ℤ :=
  s.calls - s.traceCount - s.waiting - threadCount s.producers ProducerPc.Open

/-- The call of the thread comes to nothing with its next step. -/
def Fails (thread : T) (s : TraceJob T) : Prop :=
  match s.producers thread with
  | .readStop traceSize => 0 < traceSize ∧ (s.stop = true ∨ memoryPoolSize < traceSize)
  | .checkValid _ => s.valid = false
  | .incLost => True
  | _ => False

/-! ### A step of a thread -/

section Turn

variable {old : ProducerPc} (hpc : s.producers thread = old)
include hpc

theorem missing_goTo_same (h : pc.Open ↔ old.Open) : (s.goTo thread pc).missing = s.missing := by
  unfold missing goTo
  rw [threadCount_update_same (hpc ▸ h)]
  rfl

theorem missing_goTo_leave [Finite T] (h : ¬ pc.Open) (h' : old.Open) :
    (s.goTo thread pc).missing = s.missing + 1 := by
  have hcount := threadCount_update_leave h (hpc ▸ h' : (s.producers thread).Open)
  have hwaiting : (s.goTo thread pc).waiting = s.waiting := rfl
  unfold missing
  rw [hwaiting]
  change s.calls - s.traceCount - s.waiting - threadCount (Function.update s.producers thread pc)
    ProducerPc.Open = _
  omega

theorem missing_append [Finite T] (size : ℕ) (h : ¬ pc.Open) (h' : old.Open) :
    ((s.append memoryPoolSize size).goTo thread pc).missing = s.missing := by
  have happend : (s.append memoryPoolSize size).missing = s.missing - 1 := by
    unfold missing waiting append
    simp only [List.length_append, List.length_singleton]
    push_cast
    omega
  have hgo := missing_goTo_leave (s := s.append memoryPoolSize size) hpc h h'
  omega

end Turn

omit [DecidableEq T] in
theorem missing_setReady (pos : ℕ) : (s.setReady pos).missing = s.missing := by
  unfold missing waiting setReady
  rw [List.length_map]

omit [DecidableEq T] in
/-- A notification reaches a thread that waits, not one that reads. -/
theorem consumer_notifyAll {place : ConsumerPc} (hblocked : place ≠ .blocked)
    (hwoken : place ≠ .woken) : s.notifyAll.consumer = place ↔ s.consumer = place := by
  unfold notifyAll
  split_ifs with h
  · rw [h]
    exact iff_of_false hwoken.symm hblocked.symm
  · exact Iff.rfl

omit [DecidableEq T] in
theorem missing_notifyAll : s.notifyAll.missing = s.missing := by
  have hrelease : s.notifyAll.consumer = .releaseRdBuffer ↔ s.consumer = .releaseRdBuffer :=
    consumer_notifyAll (by decide) (by decide)
  unfold missing waiting
  simp only [hrelease]
  rfl

theorem missing_turn_fails [Finite T] (h : s.Fails memoryPoolSize thread) :
    (s.turn memoryPoolSize thread).missing = s.missing + 1 := by
  unfold Fails at h
  unfold turn
  cases hpc : s.producers thread with
  | readStop traceSize =>
    rw [hpc] at h
    obtain ⟨hsize, hfail⟩ := h
    by_cases hstop : s.stop = true
    · simp only [if_pos hstop]
      exact missing_goTo_leave hpc not_false hsize
    · simp only [if_neg hstop, if_pos (hfail.resolve_left hstop)]
      exact missing_goTo_leave hpc not_false hsize
  | checkValid size =>
    rw [hpc] at h
    simp only [h, Bool.false_eq_true, if_false]
    exact missing_goTo_leave hpc not_false trivial
  | incLost =>
    exact missing_goTo_leave (s := { s with lost := incInt64 s.lost }) hpc not_false trivial
  | _ => simp only [hpc] at h

theorem missing_turn [Finite T] (h : ¬ s.Fails memoryPoolSize thread) :
    (s.turn memoryPoolSize thread).missing = s.missing := by
  unfold Fails at h
  unfold turn
  cases hpc : s.producers thread with
  | returned _ => rfl
  | readStop traceSize =>
    rw [hpc] at h
    by_cases hsize : 0 < traceSize
    · have hstop : ¬ s.stop = true := fun hstop => h ⟨hsize, Or.inl hstop⟩
      have hbig : ¬ memoryPoolSize < traceSize := fun hbig => h ⟨hsize, Or.inr hbig⟩
      simp only [if_neg hstop, if_neg hbig, if_pos hsize]
      exact missing_goTo_same hpc (iff_of_true trivial hsize)
    · simp only [if_neg hsize]
      split_ifs
      all_goals exact missing_goTo_same hpc (iff_of_false not_false hsize)
  | checkValid size =>
    rw [hpc] at h
    simp only [if_pos (Bool.eq_true_of_not_eq_false h)]
    exact missing_goTo_same hpc Iff.rfl
  | tryLockWr size retry =>
    cases retry with
    | zero => exact missing_goTo_same hpc Iff.rfl
    | succ retry =>
      simp only
      split_ifs
      · exact missing_goTo_same hpc Iff.rfl
      · exact missing_goTo_same (s := { s with wrLock := true }) hpc Iff.rfl
  | findSpace size =>
    simp only
    split_ifs
    all_goals exact missing_goTo_same hpc Iff.rfl
  | moveWrPtr size => exact missing_append _ hpc _ not_false trivial
  | unlockWr size pos =>
    cases pos
    all_goals exact missing_goTo_same (s := { s with wrLock := false }) hpc Iff.rfl
  | incLost =>
    rw [hpc] at h
    exact absurd trivial h
  | integrityCheck size pos =>
    simp only
    split_ifs
    · exact missing_goTo_same hpc Iff.rfl
    · exact missing_goTo_same (s := { s with valid := false }) hpc Iff.rfl
  | commit pos =>
    have hgo : ((s.setReady pos).goTo thread .checkTrigger).missing = (s.setReady pos).missing :=
      missing_goTo_same hpc Iff.rfl
    exact hgo.trans (missing_setReady pos)
  | checkTrigger =>
    simp only
    split_ifs
    all_goals exact missing_goTo_same hpc Iff.rfl
  | notify =>
    have hgo : (s.notifyAll.ret thread (.ok ())).missing = s.notifyAll.missing :=
      missing_goTo_same hpc Iff.rfl
    exact hgo.trans missing_notifyAll
  | setStop => exact missing_goTo_same (s := { s with stop := true }) hpc Iff.rfl
  | notifyStop =>
    have hgo : (({ s.notifyAll with stopped := true } : TraceJob T).ret thread (.ok ())).missing =
        s.notifyAll.missing := missing_goTo_same hpc Iff.rfl
    exact hgo.trans missing_notifyAll

/-- What the balance is about besides the calls. -/
structure Frame (s s' : TraceJob T) : Prop where
  lost : s'.lost = s.lost
  valid : s'.valid = s.valid
  events : s'.events = [] ↔ s.events = []
  consumer : ∀ place, place ≠ .blocked → place ≠ .woken →
    (s'.consumer = place ↔ s.consumer = place)

omit [DecidableEq T] in
theorem Frame.of_eq {s' : TraceJob T} (hlost : s'.lost = s.lost) (hvalid : s'.valid = s.valid)
    (hevents : s'.events = s.events) (hconsumer : s'.consumer = s.consumer) : s.Frame s' :=
  ⟨hlost, hvalid, by rw [hevents], fun _ _ _ => by rw [hconsumer]⟩

/-- The next step of the thread touches the frame. -/
def Touches (thread : T) (s : TraceJob T) : Prop :=
  match s.producers thread with
  | .moveWrPtr _ | .incLost => True
  | .integrityCheck size pos => intact memoryPoolSize size pos = false
  | _ => False

theorem frame_turn (h : ¬ s.Touches memoryPoolSize thread) :
    s.Frame (s.turn memoryPoolSize thread) := by
  unfold Touches at h
  unfold turn
  cases hpc : s.producers thread with
  | moveWrPtr size | incLost =>
    rw [hpc] at h
    exact absurd trivial h
  | integrityCheck size pos =>
    rw [hpc] at h
    simp only [if_pos (Bool.eq_true_of_not_eq_false h)]
    exact .of_eq rfl rfl rfl rfl
  | tryLockWr size retry =>
    cases retry with
    | zero => exact .of_eq rfl rfl rfl rfl
    | succ retry =>
      simp only
      split_ifs
      all_goals exact .of_eq rfl rfl rfl rfl
  | commit pos => exact ⟨rfl, rfl, List.map_eq_nil_iff, fun _ _ _ => Iff.rfl⟩
  | notify | notifyStop => exact ⟨rfl, rfl, Iff.rfl, fun _ => consumer_notifyAll⟩
  | unlockWr size pos | returned result | setStop => exact .of_eq rfl rfl rfl rfl
  | readStop traceSize | checkValid size | findSpace size | checkTrigger =>
    simp only
    split_ifs
    all_goals exact .of_eq rfl rfl rfl rfl

end TraceJob

end Octf.Interface
