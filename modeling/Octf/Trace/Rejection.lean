import Octf.Trace.Runs

/-! Refused events. The lost counter is a frame: no operation reads it, so a refusal that
only counts leaves the later behaviour of both sides as it was. Every refusal is of that
kind but those of events above `2 ^ 32 - 16` bytes that find room for a header. -/
namespace Octf.Trace
open Foundation

/-! ### The lost counter as a frame -/

section Frame

variable (t : OctfTrace) (m : Shared) (n : ℕ)

theorem getContinuousSpace_addLost (rdp wrp : ℕ) :
    getContinuousSpace t rdp wrp (m.addLost n) =
      ((getContinuousSpace t rdp wrp m).1, (getContinuousSpace t rdp wrp m).2.addLost n) := by
  unfold getContinuousSpace
  split_ifs <;> rfl

theorem findSpace_addLost (size rdp wrp : ℕ) :
    findSpace t size rdp wrp (m.addLost n) =
      ((findSpace t size rdp wrp m).1, (findSpace t size rdp wrp m).2.addLost n) := by
  have hbug : ∀ (m : Shared) (c : Bool), (m.addLost n).envBugOn c = (m.envBugOn c).addLost n :=
    fun _ _ => rfl
  unfold findSpace checkData
  simp only [getContinuousSpace_addLost, hbug]
  split_ifs <;> rfl

theorem allocateLocked_addLost (size : ℕ) :
    allocateLocked t size (m.addLost n) =
      ((allocateLocked t size m).1, (allocateLocked t size m).2.addLost n) := by
  have hwr : (m.addLost n).phdr.wrPtr = m.phdr.wrPtr := rfl
  have hrd : (m.addLost n).chdr.rdPtr = m.chdr.rdPtr := rfl
  unfold allocateLocked
  simp only [hwr, hrd, findSpace_addLost]
  rcases findSpace t size m.chdr.rdPtr m.phdr.wrPtr m with ⟨_ | ⟨_, _⟩, m'⟩ <;> rfl

theorem tryLockWr_addLost (retry : ℕ) :
    tryLockWr retry (m.addLost n) =
      ((tryLockWr retry m).1, (tryLockWr retry m).2.addLost n) := by
  induction retry with
  | zero => rfl
  | succ retry ih =>
    have hlock : (m.addLost n).phdr.wrLock = m.phdr.wrLock := rfl
    simp only [tryLockWr, hlock]
    split_ifs
    · rfl
    · exact ih

theorem allocateEvent_addLost (size : ℕ) :
    allocateEvent t size (m.addLost n) =
      ((allocateEvent t size m).1, (allocateEvent t size m).2.addLost n) := by
  unfold allocateEvent
  rw [tryLockWr_addLost]
  rcases tryLockWr 129 m with ⟨_ | _, m'⟩
  · rfl
  · simp only [allocateLocked_addLost]
    rfl

@[simp] theorem isTraceValid_addLost : isTraceValid (m.addLost n) = isTraceValid m := rfl

theorem addLost_comm (k : ℕ) : (m.addLost n).addLost k = (m.addLost k).addLost n := by
  simp only [Shared.addLost, Shared.mk.injEq, TraceProducerHdr.mk.injEq, true_and, and_true]
  omega

theorem octfTracePush_addLost (lib : SafeString) (event : List UInt8) :
    octfTracePush lib t event (m.addLost n) =
      ((octfTracePush lib t event m).1, (octfTracePush lib t event m).2.addLost n) := by
  unfold octfTracePush
  simp only [isTraceValid_addLost, allocateEvent_addLost]
  split_ifs
  · rfl
  · rfl
  · rcases allocateEvent t event.length m with ⟨_ | hdr, m'⟩
    · simp only [addLost_comm m' n 1]
    · have hring : (m'.addLost n).ring = m'.ring := rfl
      simp only [hring]
      split_ifs <;> rfl

theorem octfTraceGetWrBuffer_addLost (size : ℕ) :
    octfTraceGetWrBuffer t size (m.addLost n) =
      ((octfTraceGetWrBuffer t size m).1, (octfTraceGetWrBuffer t size m).2.addLost n) := by
  unfold octfTraceGetWrBuffer
  simp only [isTraceValid_addLost, allocateEvent_addLost]
  split_ifs
  · rfl
  · rfl
  · rcases allocateEvent t size m with ⟨_ | hdr, m'⟩
    · simp only [addLost_comm m' n 1]
    · have hring : (m'.addLost n).ring = m'.ring := rfl
      simp only [hring]
      split_ifs <;> rfl

theorem octfTraceCommitWrBuffer_addLost (evHndl : ℕ) :
    octfTraceCommitWrBuffer t evHndl (m.addLost n) =
      ((octfTraceCommitWrBuffer t evHndl m).1,
        (octfTraceCommitWrBuffer t evHndl m).2.addLost n) := by
  have htouch : ((m.addLost n).touch t evHndl traceEventHdrSize).ring =
      (m.touch t evHndl traceEventHdrSize).ring := rfl
  unfold octfTraceCommitWrBuffer
  simp only [isTraceValid_addLost, htouch]
  split_ifs <;> rfl

theorem getRdHdr_addLost :
    getRdHdr t (m.addLost n) = ((getRdHdr t m).1, (getRdHdr t m).2.addLost n) := by
  have hwr : (m.addLost n).phdr.wrPtr = m.phdr.wrPtr := rfl
  have hrd : (m.addLost n).chdr.rdPtr = m.chdr.rdPtr := rfl
  have htouch : ((m.addLost n).touch t m.chdr.rdPtr traceEventHdrSize).ring =
      (m.touch t m.chdr.rdPtr traceEventHdrSize).ring := rfl
  unfold getRdHdr
  simp only [hwr, hrd, htouch]
  split_ifs <;> rfl

theorem tryLockRd_addLost :
    tryLockRd (m.addLost n) = ((tryLockRd m).1, (tryLockRd m).2.addLost n) := by
  have hlock : (m.addLost n).chdr.rdLock = m.chdr.rdLock := rfl
  unfold tryLockRd
  rw [hlock]
  split_ifs <;> rfl

theorem octfTracePop_addLost (lib : SafeString) (event : List UInt8) :
    octfTracePop lib t event (m.addLost n) =
      ((octfTracePop lib t event m).1, (octfTracePop lib t event m).2.addLost n) := by
  unfold octfTracePop
  simp only [isTraceValid_addLost, tryLockRd_addLost]
  split_ifs
  · rfl
  · rfl
  · rcases tryLockRd m with ⟨_ | _, m'⟩
    · rfl
    · simp only [getRdHdr_addLost]
      rcases getRdHdr t m' with ⟨_ | hdr, m''⟩
      · rfl
      · have hring : (m''.addLost n).ring = m''.ring := rfl
        simp only [hring]
        split_ifs <;> rfl

theorem octfTraceGetRdBuffer_addLost :
    octfTraceGetRdBuffer t (m.addLost n) =
      ((octfTraceGetRdBuffer t m).1, (octfTraceGetRdBuffer t m).2.addLost n) := by
  unfold octfTraceGetRdBuffer
  simp only [isTraceValid_addLost, tryLockRd_addLost]
  split_ifs
  · rfl
  · rfl
  · rcases tryLockRd m with ⟨_ | _, m'⟩
    · rfl
    · simp only [getRdHdr_addLost]
      rcases getRdHdr t m' with ⟨_ | hdr, m''⟩
      · rfl
      · have hring : (m''.addLost n).ring = m''.ring := rfl
        simp only [hring]
        split_ifs <;> rfl

theorem octfTraceReleaseRdBuffer_addLost (evHndl : ℕ) :
    octfTraceReleaseRdBuffer t evHndl (m.addLost n) =
      ((octfTraceReleaseRdBuffer t evHndl m).1,
        (octfTraceReleaseRdBuffer t evHndl m).2.addLost n) := by
  have htouch : ((m.addLost n).touch t evHndl traceEventHdrSize).ring =
      (m.touch t evHndl traceEventHdrSize).ring := rfl
  unfold octfTraceReleaseRdBuffer
  simp only [isTraceValid_addLost, htouch]
  split_ifs <;> rfl

end Frame

/-- The session with `n` more events counted as lost. -/
def Session.addLost (s : Session) (n : ℕ) : Session := { s with shared := s.shared.addLost n }

/-- Every operation does the same whatever was counted as lost before. -/
theorem step_addLost (h : Handles) (op : Op) (s : Session) (n : ℕ) :
    Session.step h op (s.addLost n) = (Session.step h op s).addLost n := by
  have hshared : (s.addLost n).shared = s.shared.addLost n := rfl
  have haccepted : (s.addLost n).accepted = s.accepted := rfl
  have hheld : (s.addLost n).held = s.held := rfl
  cases op with
  | push event =>
    simp only [Session.step, Session.push, hshared, octfTracePush_addLost]
    rcases octfTracePush h.lib h.producer event s.shared with ⟨_ | _, m⟩ <;> rfl
  | getWrBuffer size =>
    simp only [Session.step, Session.getWrBuffer, hshared, octfTraceGetWrBuffer_addLost]
    rcases octfTraceGetWrBuffer h.producer size s.shared with ⟨_ | ⟨_, _⟩, m⟩ <;> rfl
  | fill i off bytes =>
    simp only [Session.step, Session.fill, haccepted]
    cases s.accepted[i]? with
    | none => rfl
    | some e =>
      simp only
      split_ifs <;> rfl
  | commitWrBuffer i =>
    simp only [Session.step, Session.commitWrBuffer, haccepted, hshared,
      octfTraceCommitWrBuffer_addLost]
    cases s.accepted[i]? with
    | none => rfl
    | some e =>
      simp only
      split_ifs
      · rcases octfTraceCommitWrBuffer h.producer e.hdr s.shared with ⟨_ | _, m⟩ <;> rfl
      · rfl
  | pop buffer =>
    simp only [Session.step, Session.pop, hshared, octfTracePop_addLost]
    rcases octfTracePop h.lib h.consumer buffer s.shared with ⟨_ | ⟨_, _⟩, m⟩ <;> rfl
  | getRdBuffer =>
    simp only [Session.step, Session.getRdBuffer, hshared, octfTraceGetRdBuffer_addLost]
    rcases octfTraceGetRdBuffer h.consumer s.shared with ⟨_ | ⟨_, _, _⟩, m⟩ <;> rfl
  | releaseRdBuffer =>
    simp only [Session.step, Session.releaseRdBuffer, hheld, hshared,
      octfTraceReleaseRdBuffer_addLost]
    cases s.held with
    | none => rfl
    | some hdr =>
      simp only
      rcases octfTraceReleaseRdBuffer h.consumer hdr s.shared with ⟨_ | _, m⟩ <;> rfl

theorem run_addLost (h : Handles) (ops : List Op) (s : Session) (n : ℕ) :
    run (Session.step h) ops (s.addLost n) = (run (Session.step h) ops s).addLost n := by
  induction ops generalizing s with
  | nil => rfl
  | cons op ops ih => rw [run_cons, run_cons, step_addLost, ih]

/-! ### Refusals -/

/-- What a refused event must leave as it was, and that it is counted. -/
structure LeftIntact (h : Handles) (s s' : Session) : Prop where
  lost : s'.shared.phdr.lost = (s.shared.phdr.lost + 1) % 2 ^ 64
  magic : s'.shared.phdr.magic = s.shared.phdr.magic
  rdPtr : s'.shared.chdr.rdPtr = s.shared.chdr.rdPtr
  wrPtr : s'.shared.phdr.wrPtr = s.shared.phdr.wrPtr
  ring : s'.shared.ring = s.shared.ring
  /-- whatever is called later, the same events are accepted and handed out -/
  later : ∀ ops, (run (Session.step h) ops s').accepted = (run (Session.step h) ops s).accepted ∧
    (run (Session.step h) ops s').given = (run (Session.step h) ops s).given

theorem leftIntact_addLost (h : Handles) (s : Session) : LeftIntact h s (s.addLost 1) where
  lost := rfl
  magic := rfl
  rdPtr := rfl
  wrPtr := rfl
  ring := rfl
  later := by
    intro ops
    rw [run_addLost]
    exact ⟨rfl, rfl⟩

/-- A push is accepted, or refused with the ring left intact. -/
def PushSound (h : Handles) (s : Session) (event : List UInt8) : Prop :=
  (octfTracePush h.lib h.producer event s.shared).1 = .ok () ∨
    (octfTracePush h.lib h.producer event s.shared).1 = .error .ENOSPC ∧
      LeftIntact h s (s.push h event)

/-- A reservation is made, or refused with the ring left intact. -/
def GetWrBufferSound (h : Handles) (s : Session) (size : ℕ) : Prop :=
  (∃ buffer, (octfTraceGetWrBuffer h.producer size s.shared).1 = .ok buffer) ∨
    (octfTraceGetWrBuffer h.producer size s.shared).1 = .error .ENOSPC ∧
      LeftIntact h s (s.getWrBuffer h size)

/-- The aligned size fits its 32-bit variable, or not even a header fits the ring. -/
def RefusedInOrder (h : Handles) (s : Session) (size : ℕ) : Prop :=
  size ≤ 2 ^ 32 - 16 ∨ continuousSpace h.producer.ringSize s.shared.chdr.rdPtr
    s.shared.phdr.wrPtr < traceEventHdrSize

namespace Inv

variable {h : Handles} {N R : ℕ} {s : Session} {done pending : List Event}

theorem pushSound_of_refused {event : List UInt8}
    (heq : octfTracePush h.lib h.producer event s.shared = (.error .ENOSPC, s.shared.addLost 1)) :
    PushSound h s event := by
  right
  have hpush : s.push h event = s.addLost 1 := by
    unfold Session.push
    rw [heq]
    rfl
  rw [heq, hpush]
  exact ⟨rfl, leftIntact_addLost h s⟩

theorem pushSound_iff (ho : h.Opened N) (hi : Inv N s R done pending) {event : List UInt8}
    (h32 : event.length < 2 ^ 32) :
    PushSound h s event ↔ RefusedInOrder h s event.length := by
  unfold RefusedInOrder
  by_cases hsize : event.length ≤ 2 ^ 32 - 16
  · refine ⟨fun _ => .inl hsize, fun _ => ?_⟩
    have heq := hi.octfTracePush_eq ho hsize
    split_ifs at heq
    · left
      rw [heq]
    · exact pushSound_of_refused heq
  · have hover := hi.octfTracePush_oversized ho (not_le.mp hsize) h32
    rw [ho.producerSize]
    split_ifs at hover with hfull
    · exact ⟨fun _ => .inr hfull, fun _ => pushSound_of_refused hover⟩
    · constructor
      · rintro (hok | ⟨herr, _⟩)
        · rw [hover.1] at hok
          exact absurd hok (by simp)
        · rw [hover.1] at herr
          exact absurd herr (by simp)
      · rintro (hle | hlt)
        · exact absurd hle hsize
        · exact absurd hlt hfull

theorem getWrBufferSound_of_refused {size : ℕ}
    (heq : octfTraceGetWrBuffer h.producer size s.shared =
      (.error .ENOSPC, s.shared.addLost 1)) : GetWrBufferSound h s size := by
  right
  have hget : s.getWrBuffer h size = s.addLost 1 := by
    unfold Session.getWrBuffer
    rw [heq]
    rfl
  rw [heq, hget]
  exact ⟨rfl, leftIntact_addLost h s⟩

theorem getWrBufferSound_iff (ho : h.Opened N) (hi : Inv N s R done pending) {size : ℕ}
    (h32 : size < 2 ^ 32) : GetWrBufferSound h s size ↔ RefusedInOrder h s size := by
  unfold RefusedInOrder
  by_cases hsize : size ≤ 2 ^ 32 - 16
  · refine ⟨fun _ => .inl hsize, fun _ => ?_⟩
    have heq := hi.octfTraceGetWrBuffer_eq ho hsize
    split_ifs at heq
    · left
      rw [heq]
      exact ⟨_, rfl⟩
    · exact getWrBufferSound_of_refused heq
  · have hover := hi.octfTraceGetWrBuffer_oversized ho (not_le.mp hsize) h32
    rw [ho.producerSize]
    split_ifs at hover with hfull
    · exact ⟨fun _ => .inr hfull, fun _ => getWrBufferSound_of_refused hover⟩
    · constructor
      · rintro (⟨buffer, hok⟩ | ⟨herr, _⟩)
        · rw [hover.1] at hok
          exact absurd hok (by simp)
        · rw [hover.1] at herr
          exact absurd herr (by simp)
      · rintro (hle | hlt)
        · exact absurd hle hsize
        · exact absurd hlt hfull

end Inv

/-- In every reachable state of a valid trace whose headers were empty at its open, both calls
refuse in order exactly the sizes that keep their value when aligned, and any size where no header
fits. -/
theorem session_refused_iff {lib : SafeString} (hlib : lib.Lawful) {heap : Bool}
    {mempoolSize : ℕ} {hdr : Bool} {m : Shared} {h : Handles} {s : Session}
    (h32 : mempoolSize < 2 ^ 32) (hempty : OpensEmpty mempoolSize hdr m)
    (hopen : openSession lib heap mempoolSize hdr m = .ok (h, s))
    {ops : List Op} (hops : ∀ op ∈ ops, op.Fits)
    (hvalid : isTraceValid (run (Session.step h) ops s).shared = true) :
    (∀ event : List UInt8, event.length < 2 ^ 32 →
      (PushSound h (run (Session.step h) ops s) event ↔
        RefusedInOrder h (run (Session.step h) ops s) event.length)) ∧
    (∀ size < 2 ^ 32, (GetWrBufferSound h (run (Session.step h) ops s) size ↔
      RefusedInOrder h (run (Session.step h) ops s) size)) := by
  obtain ⟨ho, hi⟩ := openSession_inv hlib h32 hempty hopen
  obtain ⟨R, done, pending, hrun⟩ := run_valid_inv ho hops ⟨0, [], [], hi⟩ hvalid
  exact ⟨fun event hev => hrun.pushSound_iff ho hev,
    fun size hsize => hrun.getWrBufferSound_iff ho hsize⟩

theorem session_refused_iff_small :
    (∀ event : List UInt8, event.length < 2 ^ 32 →
      (PushSound smallHandles (run (Session.step smallHandles) [.push [1]] smallSession) event ↔
        RefusedInOrder smallHandles (run (Session.step smallHandles) [.push [1]] smallSession)
          event.length)) ∧
    (∀ size < 2 ^ 32,
      (GetWrBufferSound smallHandles (run (Session.step smallHandles) [.push [1]] smallSession)
          size ↔
        RefusedInOrder smallHandles (run (Session.step smallHandles) [.push [1]] smallSession)
          size)) :=
  session_refused_iff SafeString.plain_lawful (by decide) (.inl (by decide)) openSession_small
    (by simp [Op.Fits]) (by decide)

/-- The largest size is aligned to zero: the reservation succeeds, and the check behind it
takes the magic away. -/
theorem getWrBuffer_max_unsound :
    ¬ GetWrBufferSound smallHandles smallSession (2 ^ 32 - 1) ∧
      isTraceValid (smallSession.getWrBuffer smallHandles (2 ^ 32 - 1)).shared = false ∧
        (smallSession.getWrBuffer smallHandles (2 ^ 32 - 1)).shared.phdr.lost = 0 := by
  have hresult : (octfTraceGetWrBuffer smallHandles.producer (2 ^ 32 - 1)
      smallSession.shared).1 = .error .EINVAL := by decide
  refine ⟨?_, by decide, by decide⟩
  rintro (⟨buffer, hok⟩ | ⟨herr, _⟩)
  · rw [hresult] at hok
    exact absurd hok (by simp)
  · rw [hresult] at herr
    exact absurd herr (by simp)

end Octf.Trace
