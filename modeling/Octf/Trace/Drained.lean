import Octf.Trace.Rejection
import Octf.Trace.Accounting

/-! A drained ring has room for any event of up to half its size, wherever its two
pointers have come to meet. -/
namespace Octf.Trace
open Foundation Foundation.RecordRing

/-- The pointers meet: the consumer has released every event in the ring. -/
def Drained (s : Session) : Prop := s.shared.chdr.rdPtr = s.shared.phdr.wrPtr

instance (s : Session) : Decidable (Drained s) := Nat.decEq _ _

/-- Two such events fit the ring with their headers. -/
def HalfRing (N size : ℕ) : Prop := 2 * (traceAlign size + traceEventHdrSize) ≤ N

instance (N size : ℕ) : Decidable (HalfRing N size) := Nat.decLe _ _

/-- Both ways of writing an event of this size succeed. -/
structure Admits (h : Handles) (s : Session) (size : ℕ) : Prop where
  push : ∀ event : List UInt8, event.length = size →
    (octfTracePush h.lib h.producer event s.shared).1 = .ok ()
  getWrBuffer : ∃ buffer, (octfTraceGetWrBuffer h.producer size s.shared).1 = .ok buffer

/-- From any aligned position the skipped tail is shorter than the event it did not fit. -/
theorem nextPos_lt {N v s : ℕ} (hN : WellSized N) :
    nextPos N 16 v s < v + 16 + 2 * s + 1 := by
  have hmod := Nat.mod_lt (v + 16) hN.pos
  unfold nextPos payloadPos
  split_ifs <;> omega

/-- An event of half the ring is accepted behind a write position that is also the read
position. -/
theorem accepts_of_halfRing {N R size : ℕ} (hN : WellSized N) (hsize : HalfRing N size) :
    Accepts N R R size := by
  have hnext := nextPos_lt (v := R) (s := traceAlign size) hN
  unfold HalfRing traceEventHdrSize at hsize
  unfold Accepts
  omega

/-- The trace was invalidated by an allocation that has moved the write pointer away. -/
def Apart (s : Session) : Prop := isTraceValid s.shared = false ∧ ¬ Drained s

namespace Inv

variable {h : Handles} {N R : ℕ} {s : Session} {done pending : List Event}

/-- The pointers meet exactly when no accepted event waits to be released. -/
theorem drained_iff (hi : Inv N s R done pending) : Drained s ↔ pending = [] := by
  have hempty := hi.isEmpty_eq
  unfold Drained
  rw [hi.pointers.rdPtr, hi.pointers.wrPtr, ← List.isEmpty_iff, ← hempty, isEmpty, beq_iff_eq]

theorem admits (ho : h.Opened N) (hi : Inv N s R done pending) (hd : Drained s) {size : ℕ}
    (h32 : size ≤ 2 ^ 32 - 16) (hsize : HalfRing N size) : Admits h s size := by
  have hempty : pending = [] := hi.drained_iff.mp hd
  subst hempty
  have haccept : Accepts N R (W N R []) size := accepts_of_halfRing ho.sized hsize
  constructor
  · rintro event rfl
    rw [hi.octfTracePush_eq ho h32, if_pos haccept]
  · rw [hi.octfTraceGetWrBuffer_eq ho h32, if_pos haccept]
    exact ⟨_, rfl⟩

/-- An oversized allocation leaves the write pointer one header further, short of a lap. -/
theorem apart_allocated (ho : h.Opened N) (hi : Inv N s R done pending)
    (hroom : ¬ continuousSpace N s.shared.chdr.rdPtr s.shared.phdr.wrPtr < traceEventHdrSize)
    {size : ℕ} (hsize : 2 ^ 32 - 16 < size) (h32 : size < 2 ^ 32) :
    (s.shared.allocated N (W N R pending) size).chdr.rdPtr ≠
      (s.shared.allocated N (W N R pending) size).phdr.wrPtr := by
  have hlt : W N R pending + 16 < R + N := not_le.mp (mt (hi.headerSpace_iff ho).mpr hroom)
  have hle : R ≤ W N R pending := hi.pointers.le
  have hnext : nextPos N 16 (W N R pending) (alignedSize size) = W N R pending + 16 := by
    have hmod := Nat.mod_lt (W N R pending + 16) ho.sized.pos
    rw [alignedSize_of_gt hsize h32, nextPos, payloadPos, if_pos (by omega)]
  have hgap := gap_cases (r := R) (w := W N R pending + 16) (by omega) hlt
  simp only [Shared.allocated, hnext, hi.pointers.rdPtr]
  omega

/-- An oversized event is refused as lost, or invalidates the trace with its pointers apart. -/
theorem apart_or_addLost_of_push (ho : h.Opened N) (hi : Inv N s R done pending)
    {event : List UInt8} (hsize : 2 ^ 32 - 16 < event.length) (h32 : event.length < 2 ^ 32) :
    Apart (s.push h event) ∨ s.push h event = s.addLost 1 := by
  unfold Session.push
  by_cases hfull : continuousSpace N s.shared.chdr.rdPtr s.shared.phdr.wrPtr < traceEventHdrSize
  · right
    have hover := hi.octfTracePush_oversized ho hsize h32
    rw [if_pos hfull] at hover
    rw [hover]
    rfl
  · left
    have hcheck := integrityCheck_oversized ho s.shared (W N R pending) hsize h32
    have hne := hi.apart_allocated ho hfull hsize h32
    unfold octfTracePush
    simp only [hi.valid, ho.producerMode, hi.allocateEvent_oversized ho hfull hsize h32, hcheck]
    exact ⟨by simp [isTraceValid, Shared.envBug, Shared.setMagic, traceMagicBuffer, traceMagic],
      hne⟩

theorem apart_or_addLost_of_getWrBuffer (ho : h.Opened N) (hi : Inv N s R done pending)
    {size : ℕ} (hsize : 2 ^ 32 - 16 < size) (h32 : size < 2 ^ 32) :
    Apart (s.getWrBuffer h size) ∨ s.getWrBuffer h size = s.addLost 1 := by
  unfold Session.getWrBuffer
  by_cases hfull : continuousSpace N s.shared.chdr.rdPtr s.shared.phdr.wrPtr < traceEventHdrSize
  · right
    have hover := hi.octfTraceGetWrBuffer_oversized ho hsize h32
    rw [if_pos hfull] at hover
    rw [hover]
    rfl
  · left
    have hcheck := integrityCheck_oversized ho s.shared (W N R pending) hsize h32
    have hne := hi.apart_allocated ho hfull hsize h32
    unfold octfTraceGetWrBuffer
    simp only [hi.valid, ho.producerMode, hi.allocateEvent_oversized ho hfull hsize h32, hcheck]
    exact ⟨by simp [isTraceValid, Shared.envBug, Shared.setMagic, traceMagicBuffer, traceMagic],
      hne⟩

/-- One operation keeps the invariant, or invalidates the trace with its pointers apart. -/
theorem step_apart (ho : h.Opened N) (hi : Inv N s R done pending) {op : Op} (hop : op.Fits) :
    (∃ R' done' pending', Inv N (Session.step h op s) R' done' pending') ∨
      Apart (Session.step h op s) := by
  by_cases hsmall : op.SmallEvent
  · exact .inl (hi.step ho hsmall)
  · have hlost : ∃ R' done' pending', Inv N (s.addLost 1) R' done' pending' :=
      ⟨R, done, pending, hi.addLost 1⟩
    cases op with
    | push event =>
      rcases hi.apart_or_addLost_of_push ho (not_le.mp hsmall) hop with hbad | heq
      · exact .inr hbad
      · exact .inl (by rw [Session.step, heq]; exact hlost)
    | getWrBuffer size =>
      rcases hi.apart_or_addLost_of_getWrBuffer ho (not_le.mp hsmall) hop with hbad | heq
      · exact .inr hbad
      · exact .inl (by rw [Session.step, heq]; exact hlost)
    | pop buffer => exact absurd hop hsmall
    | _ => exact absurd trivial hsmall

end Inv

/-- On an invalid trace no operation moves a pointer. -/
theorem step_pointers (h : Handles) {s : Session} (hs : isTraceValid s.shared = false)
    (op : Op) : Drained (Session.step h op s) ↔ Drained s := by
  unfold Drained
  cases op with
  | push event => simp [Session.step, Session.push, octfTracePush, hs]
  | getWrBuffer size => simp [Session.step, Session.getWrBuffer, octfTraceGetWrBuffer, hs]
  | fill i off bytes =>
    simp only [Session.step, Session.fill]
    cases s.accepted[i]? with
    | none => exact Iff.rfl
    | some e =>
      simp only
      split_ifs <;> exact Iff.rfl
  | commitWrBuffer i =>
    simp only [Session.step, Session.commitWrBuffer]
    cases s.accepted[i]? with
    | none => exact Iff.rfl
    | some e =>
      simp only
      split_ifs
      · simp [octfTraceCommitWrBuffer, hs]
      · exact Iff.rfl
  | pop buffer => simp [Session.step, Session.pop, octfTracePop, hs]
  | getRdBuffer => simp [Session.step, Session.getRdBuffer, octfTraceGetRdBuffer, hs]
  | releaseRdBuffer =>
    simp only [Session.step, Session.releaseRdBuffer]
    cases s.held with
    | none => exact Iff.rfl
    | some hdr => simp [octfTraceReleaseRdBuffer, hs]

/-- After any run the invariant holds, or the trace is invalid with its pointers apart. -/
theorem run_apart {h : Handles} {N : ℕ} (ho : h.Opened N) {s : Session} {ops : List Op}
    (hops : ∀ op ∈ ops, op.Fits) (hs : ∃ R done pending, Inv N s R done pending) :
    (∃ R done pending, Inv N (run (Session.step h) ops s) R done pending) ∨
      Apart (run (Session.step h) ops s) := by
  refine run_invariant (C := fun (op : Op) _ => op.Fits)
    (P := fun s => (∃ R done pending, Inv N s R done pending) ∨ Apart s) ?_
    (meets_of_forall hops s) (.inl hs)
  rintro op s hop (⟨R, done, pending, hi⟩ | ⟨hinvalid, hne⟩)
  · exact hi.step_apart ho hop
  · exact .inr ⟨step_invalid h hinvalid op, mt (step_pointers h hinvalid op).mp hne⟩

/-- If the headers are empty at the open: wherever the pointers of a drained ring meet, it admits
every event that fits its half; and as long as the trace is valid they meet exactly when all
accepted events are released. -/
theorem session_drained {lib : SafeString} (hlib : lib.Lawful) {heap : Bool}
    {mempoolSize : ℕ} {hdr : Bool} {m : Shared} {h : Handles} {s : Session}
    (h32 : mempoolSize < 2 ^ 32) (hempty : OpensEmpty mempoolSize hdr m)
    (hopen : openSession lib heap mempoolSize hdr m = .ok (h, s))
    {ops : List Op} (hops : ∀ op ∈ ops, op.Fits) :
    (Drained (run (Session.step h) ops s) → ∀ size, 1 ≤ size → size ≤ 2 ^ 32 - 16 →
      HalfRing h.producer.ringSize size → Admits h (run (Session.step h) ops s) size) ∧
    (isTraceValid (run (Session.step h) ops s).shared = true →
      (Drained (run (Session.step h) ops s) ↔ (run (Session.step h) ops s).pending = [])) := by
  obtain ⟨ho, hi⟩ := openSession_inv hlib h32 hempty hopen
  rcases run_apart ho hops ⟨0, [], [], hi⟩ with ⟨R, done, pending, hrun⟩ | ⟨hinvalid, hne⟩
  · refine ⟨fun hd size _ hsmall hsize => ?_, fun _ => ?_⟩
    · rw [ho.producerSize] at hsize
      exact hrun.admits ho hd hsmall hsize
    · rw [hrun.drained_iff, hrun.pending_eq]
  · exact ⟨fun hd => absurd hd hne, fun hvalid => by simp [hinvalid] at hvalid⟩

/-- Half of the smallest ring, after an event was pushed and popped. -/
theorem session_drained_small : Admits smallHandles
    (run (Session.step smallHandles) [.push [1], .pop [0]] smallSession) 14288 :=
  (session_drained SafeString.plain_lawful (by decide) (.inl (by decide)) openSession_small
    (by simp [Op.Fits])).1 (by decide) 14288 (by decide) (by decide) (by decide)

/-- A lock that was left in the pool is never released: the ring is drained and admits nothing. -/
theorem not_admits_dirty :
    openSession .plain true largePool false (dirtyPool 0 1) = .ok (largeHandles, dirtySession 0 1) ∧
      Drained (dirtySession 0 1) ∧ HalfRing largeHandles.producer.ringSize 1 ∧
        ¬ Admits largeHandles (dirtySession 0 1) 1 := by
  refine ⟨openSession_dirty 0 1, by decide, by decide, fun hadmits => ?_⟩
  have hlocked : (octfTraceGetWrBuffer largeHandles.producer 1 (dirtySession 0 1).shared).1 =
      .error .ENOSPC := rfl
  obtain ⟨buffer, hbuffer⟩ := hadmits.getWrBuffer
  rw [hlocked] at hbuffer
  cases hbuffer

end Octf.Trace
