import Octf.Trace.Interleaving

/-! A call whose turns are not interrupted by the other side is the whole operation of
`RingBuffer`: the two models of the trace are cut from one program. -/
namespace Octf.Trace
open Foundation

/-- Successive turns of one side alone. -/
def producerTurns (h : Handles) (call : ProducerCall) (n : ℕ) (y : Session × ProducerPc) :
    Session × ProducerPc := (fun y => producerStep h call y.1 y.2)^[n] y

def consumerTurns (h : Handles) (call : ConsumerCall) (n : ℕ) (y : Session × ConsumerPc) :
    Session × ConsumerPc := (fun y => consumerStep h call y.1 y.2)^[n] y

theorem producerTurns_add (h : Handles) (call : ProducerCall) (n k : ℕ)
    (y : Session × ProducerPc) :
    producerTurns h call (n + k) y = producerTurns h call k (producerTurns h call n y) := by
  rw [Nat.add_comm, producerTurns, Function.iterate_add_apply]
  rfl

theorem consumerTurns_add (h : Handles) (call : ConsumerCall) (n k : ℕ)
    (y : Session × ConsumerPc) :
    consumerTurns h call (n + k) y = consumerTurns h call k (consumerTurns h call n y) := by
  rw [Nat.add_comm, consumerTurns, Function.iterate_add_apply]
  rfl

/-- Where `_allocate_event` leads. -/
def afterAllocation (r : Request) : Option ℕ → ProducerPc
  | none => .incLost
  | some hdr => .check r hdr

/-- Where `_get_rd_hdr` leads. -/
def afterRdHdr (r : Reader) : Option ℕ → ConsumerPc
  | none => .readClosed
  | some hdr => .take r hdr

/-- The turns of `_allocate_event`. -/
theorem allocateEvent_turns (h : Handles) (call : ProducerCall) (r : Request) (s : Session) :
    ∃ n s', producerTurns h call n (s, .lockWr r) =
        (s', afterAllocation r (allocateEvent h.producer r.size s.shared).1) ∧
      s'.shared = (allocateEvent h.producer r.size s.shared).2 := by
  unfold allocateEvent allocateLocked
  rcases hlock : tryLockWr 129 s.shared with ⟨_ | _, m⟩
  · exact ⟨1, { s with shared := m }, by simp [producerTurns, producerStep, hlock,
      afterAllocation], rfl⟩
  · rcases hfind : findSpace h.producer r.size m.chdr.rdPtr m.phdr.wrPtr m with
      ⟨_ | ⟨hdr, wrp⟩, m'⟩
    · exact ⟨5, { s with shared := m'.setWrLock 0 }, by simp [producerTurns, producerStep,
        hlock, hfind, afterAllocation], by simp [hfind]⟩
    · exact ⟨6, _, by simp [producerTurns, producerStep, hlock, hfind, afterAllocation]; rfl,
        by simp [hfind]⟩

/-- The turns of `_get_rd_hdr`. -/
theorem getRdHdr_turns (h : Handles) (call : ConsumerCall) (r : Reader) (s : Session) :
    ∃ n, consumerTurns h call n (s, .readRdPtr r) =
      ({ s with shared := (getRdHdr h.consumer s.shared).2 },
        afterRdHdr r (getRdHdr h.consumer s.shared).1) := by
  unfold getRdHdr
  cases hempty : isEmpty s.shared.chdr.rdPtr s.shared.phdr.wrPtr with
  | true => exact ⟨2, by simp [consumerTurns, consumerStep, hempty, afterRdHdr]⟩
  | false =>
    cases hhead : integrityCheck h.consumer s.shared.chdr.rdPtr traceEventHdrSize with
    | false => exact ⟨2, by simp [consumerTurns, consumerStep, hempty, hhead, afterRdHdr]⟩
    | true =>
      generalize htouch :
        s.shared.touch h.consumer s.shared.chdr.rdPtr traceEventHdrSize = m
      cases hready : (readHdr m.ring s.shared.chdr.rdPtr).ready with
      | false =>
        exact ⟨3, by simp [consumerTurns, consumerStep, hempty, hhead, htouch, hready,
          afterRdHdr]⟩
      | true =>
        exact ⟨3, by simp [consumerTurns, consumerStep, hempty, hhead, htouch, hready,
          afterRdHdr]⟩

/-- A push whose turns are not interrupted leaves the memory of the whole operation. -/
theorem push_uninterrupted (h : Handles) (event : List UInt8) (s : Session) :
    ∃ n s', producerTurns h (.request (.push event)) n (s, .idle) = (s', .idle) ∧
      s'.shared = (octfTracePush h.lib h.producer event s.shared).2 := by
  unfold octfTracePush
  cases hv : isTraceValid s.shared with
  | false => exact ⟨1, s, by simp [producerTurns, producerStep, hv], by simp⟩
  | true =>
    cases hm : h.producer.mode with
    | consumer => exact ⟨1, s, by simp [producerTurns, producerStep, hm], by simp⟩
    | producer =>
      have hbegin : producerTurns h (.request (.push event)) 1 (s, .idle) =
          (s, .lockWr (.push event)) := by simp [producerTurns, producerStep, hv, hm]
      obtain ⟨n, s', hturns, hshared⟩ :=
        allocateEvent_turns h (.request (.push event)) (.push event) s
      simp only [Request.size] at hturns hshared
      rcases halloc : allocateEvent h.producer event.length s.shared with ⟨_ | hdr, m⟩ <;>
        rw [halloc] at hturns hshared <;> simp only [afterAllocation] at hturns hshared
      · refine ⟨1 + n + 1, { s' with shared := s'.shared.addLost 1 }, ?_, by simp [hshared]⟩
        rw [producerTurns_add, producerTurns_add, hbegin, hturns]
        simp [producerTurns, producerStep]
      · cases hc : integrityCheck h.producer (readHdr m.ring hdr).dataPtr
            (readHdr m.ring hdr).dataSize with
        | false =>
          refine ⟨1 + n + 1, { s' with shared := (s'.shared.setMagic 0).envBug }, ?_,
            by simp [hshared, hc]⟩
          rw [producerTurns_add, producerTurns_add, hbegin, hturns]
          simp [producerTurns, producerStep, hshared, hc]
        | true =>
          refine ⟨1 + n + 3, (producerTurns h (.request (.push event)) 3
            (s', .check (.push event) hdr)).1, ?_, ?_⟩
          · rw [producerTurns_add, producerTurns_add, hbegin, hturns]
            simp [producerTurns, producerStep, hshared, hc]
          · simp [producerTurns, producerStep, hshared, hc]

/-- The error a call returns, if any. -/
def errorOf {α : Type} : Except Errno α → Option Errno
  | .error e => some e
  | .ok _ => none

/-- The turns of a read up to the event it finds. -/
theorem read_turns (h : Handles) {r : Reader} {s : Session} {m : Shared} (answer : Option Errno)
    (hv : isTraceValid s.shared = true) (hm : h.consumer.mode = .consumer)
    (hlock : tryLockRd s.shared = (true, m)) :
    ∃ n, consumerTurns h (.read r) n (s, .idle answer) =
      ({ s with shared := (getRdHdr h.consumer m).2 },
        afterRdHdr r (getRdHdr h.consumer m).1) := by
  obtain ⟨n, hturns⟩ := getRdHdr_turns h (.read r) r { s with shared := m }
  refine ⟨2 + n, ?_⟩
  have hbegin : consumerTurns h (.read r) 2 (s, .idle answer) =
      ({ s with shared := m }, .readRdPtr r) := by
    simp [consumerTurns, consumerStep, hv, hm, hlock]
  rw [consumerTurns_add, hbegin, hturns]

/-- A pop whose turns are not interrupted is the whole operation. -/
theorem pop_uninterrupted (h : Handles) (buffer : List UInt8) (s : Session)
    (answer : Option Errno) :
    ∃ n, consumerTurns h (.read (.pop buffer)) n (s, .idle answer) =
      (s.pop h buffer, .idle (errorOf (octfTracePop h.lib h.consumer buffer s.shared).1)) := by
  unfold Session.pop octfTracePop
  cases hv : isTraceValid s.shared with
  | false => exact ⟨1, by simp [consumerTurns, consumerStep, hv, errorOf]⟩
  | true =>
    cases hm : h.consumer.mode with
    | producer => exact ⟨1, by simp [consumerTurns, consumerStep, hv, hm, errorOf]⟩
    | consumer =>
      rcases hlock : tryLockRd s.shared with ⟨_ | _, m⟩
      · exact ⟨2, by simp [consumerTurns, consumerStep, hv, hm, hlock, errorOf]⟩
      · obtain ⟨n, hturns⟩ := read_turns h (r := .pop buffer) answer hv hm hlock
        rcases hget : getRdHdr h.consumer m with ⟨_ | hdr, m'⟩ <;> rw [hget] at hturns <;>
          simp only [afterRdHdr] at hturns
        · refine ⟨n + 2, ?_⟩
          rw [consumerTurns_add, hturns]
          simp [consumerTurns, consumerStep, hget, errorOf]
        · by_cases hfit : buffer.length < (readHdr m'.ring hdr).dataSize
          · refine ⟨n + 2, ?_⟩
            rw [consumerTurns_add, hturns]
            simp [consumerTurns, consumerStep, hget, hfit, errorOf]
          · cases hc : integrityCheck h.consumer (readHdr m'.ring hdr).dataPtr
                (readHdr m'.ring hdr).dataSize with
            | false =>
              refine ⟨n + 2, ?_⟩
              rw [consumerTurns_add, hturns]
              simp [consumerTurns, consumerStep, hget, hfit, hc, errorOf]
            | true =>
              refine ⟨n + 3, ?_⟩
              rw [consumerTurns_add, hturns]
              simp [consumerTurns, consumerStep, hget, hfit, hc, errorOf]

/-- A zero-copy read whose turns are not interrupted is the whole operation. -/
theorem getRdBuffer_uninterrupted (h : Handles) (s : Session) (answer : Option Errno) :
    ∃ n, consumerTurns h (.read .getRdBuffer) n (s, .idle answer) =
      (s.getRdBuffer h, .idle (errorOf (octfTraceGetRdBuffer h.consumer s.shared).1)) := by
  unfold Session.getRdBuffer octfTraceGetRdBuffer
  cases hv : isTraceValid s.shared with
  | false => exact ⟨1, by simp [consumerTurns, consumerStep, hv, errorOf]⟩
  | true =>
    cases hm : h.consumer.mode with
    | producer => exact ⟨1, by simp [consumerTurns, consumerStep, hv, hm, errorOf]⟩
    | consumer =>
      rcases hlock : tryLockRd s.shared with ⟨_ | _, m⟩
      · exact ⟨2, by simp [consumerTurns, consumerStep, hv, hm, hlock, errorOf]⟩
      · obtain ⟨n, hturns⟩ := read_turns h (r := .getRdBuffer) answer hv hm hlock
        rcases hget : getRdHdr h.consumer m with ⟨_ | hdr, m'⟩ <;> rw [hget] at hturns <;>
          simp only [afterRdHdr] at hturns
        · refine ⟨n + 2, ?_⟩
          rw [consumerTurns_add, hturns]
          simp [consumerTurns, consumerStep, hget, errorOf]
        · cases hc : integrityCheck h.consumer (readHdr m'.ring hdr).dataPtr
              (readHdr m'.ring hdr).dataSize with
          | false =>
            refine ⟨n + 2, ?_⟩
            rw [consumerTurns_add, hturns]
            simp [consumerTurns, consumerStep, hget, hc, errorOf]
          | true =>
            refine ⟨n + 1, ?_⟩
            rw [consumerTurns_add, hturns]
            simp [consumerTurns, consumerStep, hget, hc, errorOf]

end Octf.Trace
