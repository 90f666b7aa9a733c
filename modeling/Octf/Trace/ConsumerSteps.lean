import Octf.Trace.ProducerSteps

/-! The consumer's operations keep the session invariant, and with them every whole
operation does. -/
namespace Octf.Trace
open Foundation Foundation.RecordRing

theorem setRdLock_unlock {m : Shared} (h : m.chdr.rdLock = 0) :
    (m.setRdLock 1).setRdLock 0 = m := by
  cases m with
  | mk phdr chdr _ _ _ =>
    cases chdr
    simp only at h
    subst h
    rfl

namespace Inv

variable {h : Handles} {N R : ℕ} {s : Session} {done pending : List Event}

/-- The event a read operation finds: the first pending one, once it is committed. -/
def readable : List Event → Option Event
  | [] => none
  | e :: _ => if e.committed then some e else none

theorem readable_eq_some {e : Event} (hr : readable pending = some e) :
    ∃ es, pending = e :: es ∧ e.committed = true := by
  cases pending with
  | nil => simp [readable] at hr
  | cons f fs =>
    simp only [readable, Option.ite_none_right_eq_some, Option.some.injEq] at hr
    obtain ⟨hc, rfl⟩ := hr
    exact ⟨fs, rfl, hc⟩

/-- The first pending event lies at the read pointer. -/
theorem head_hdr {e : Event} {es : List Event} (hi : Inv N s R done (e :: es)) :
    e.hdr = R % N := by
  have hlaid := hi.laid
  simp only [List.map_cons, places, List.cons.injEq] at hlaid
  rw [hlaid.1]
  rfl

/-- The pointers meet exactly when nothing is pending. -/
theorem isEmpty_eq (hi : Inv N s R done pending) :
    isEmpty (R % N) (W N R pending % N) = pending.isEmpty := by
  cases pending with
  | nil =>
    have hW : W N R ([] : List Event) = R := rfl
    simp [isEmpty, hW]
  | cons e es =>
    -- a pending record keeps the pointers apart, and less than a lap so
    have hnext := le_nextPos (N := N) (u := 16) R (traceAlign e.size)
    have hend := le_endOf N (nextPos N 16 R (traceAlign e.size)) (es.map fun e => e.size)
    have hgap := gap_cases (w := W N R (e :: es)) hi.pointers.le hi.pointers.lt
    change nextPos N 16 R (traceAlign e.size) ≤ W N R (e :: es) at hend
    simp only [isEmpty, List.isEmpty_cons, beq_eq_false_iff_ne, ne_eq]
    omega

/-- The header at the read pointer lies inside the ring. -/
theorem integrityCheck_rdPtr (ho : h.Opened N) (hi : Inv N s R done pending) :
    integrityCheck h.consumer (R % N) traceEventHdrSize = true := by
  apply integrityCheck_of_le <;> rw [ho.consumerSize]
  · exact ho.sized
  · exact Nat.mod_lt _ ho.sized.pos
  · exact head_le ho.sized.dvd ho.sized.pos hi.pointers.dvdR

/-- Without an event to read, the consumer finds equal pointers or a header not ready. -/
theorem getRdHdr_eq (ho : h.Opened N) (hi : Inv N s R done pending) (lock : ℕ) :
    getRdHdr h.consumer (s.shared.setRdLock lock) =
      ((readable pending).map fun e => e.hdr, s.shared.setRdLock lock) := by
  have hrd : (s.shared.setRdLock lock).chdr.rdPtr = R % N := hi.pointers.rdPtr
  have hwr : (s.shared.setRdLock lock).phdr.wrPtr = W N R pending % N := hi.pointers.wrPtr
  have hhead := head_le ho.sized.dvd ho.sized.pos hi.pointers.dvdR
  unfold getRdHdr
  simp only [hrd, hwr, hi.isEmpty_eq, hi.integrityCheck_rdPtr ho]
  cases pending with
  | nil => rfl
  | cons e es =>
    rw [touch_of_le (by rw [ho.consumerSize]; exact hhead)]
    have hread : (readHdr (s.shared.setRdLock lock).ring (R % N)).ready = e.committed := by
      change (readHdr s.shared.ring (R % N)).ready = e.committed
      rw [← hi.head_hdr, (hi.stored e (List.mem_cons_self ..)).hdr]
    rw [hread, ← hi.head_hdr]
    cases hc : e.committed <;> simp [readable, hc]

/-- Moving the read pointer behind the first pending event. -/
theorem moveRdPtr_eq (ho : h.Opened N) {e : Event} {es : List Event}
    (hi : Inv N s R done (e :: es)) (m : Shared) (hm : m.ring = s.shared.ring) :
    moveRdPtr h.consumer e.hdr m =
      m.setRdPtr (nextPos N 16 R (traceAlign e.size) % N) := by
  have hlaid := hi.laid
  simp only [List.map_cons, places, List.cons.injEq] at hlaid
  have hptr : e.ptr = payloadPos N 16 R (traceAlign e.size) % N := by rw [hlaid.1]; rfl
  have ht : WellSized h.consumer.ringSize := by rw [ho.consumerSize]; exact ho.sized
  have hsmall := hi.small e (List.mem_cons_self ..)
  have h33 : traceAlign e.size < 2 ^ 33 := by rw [traceAlign_eq]; omega
  unfold moveRdPtr
  rw [hm, (hi.stored e (List.mem_cons_self ..)).hdr]
  simp only [hptr]
  have hmove := movePtr_mod ht (payloadPos N 16 R (traceAlign e.size)) h33
  rw [ho.consumerSize] at hmove
  rw [hmove, nextPos]

/-- The shared memory after the first pending event was taken out. -/
def consumed (N R : ℕ) (e : Event) (m : Shared) : Shared :=
  (m.setRdPtr (nextPos N 16 R (traceAlign e.size) % N)).setRdLock 0

/-- Taking the first pending event out of the ring keeps the invariant. -/
theorem advance (hN : WellSized N) {e : Event} {es : List Event} (hi : Inv N s R done (e :: es))
    (hc : e.committed = true) {refused : Bool} {given : List (ℕ × List UInt8)}
    (hrefused : refused = false → s.shared.refused = false)
    (hgiven : Handed refused given (done ++ [e])) :
    Inv N { s with
      shared := { consumed N R e s.shared with refused := refused }, given := given, held := none }
      (nextPos N 16 R (traceAlign e.size)) (done ++ [e]) es := by
  have hlaid := hi.laid
  simp only [List.map_cons, places, List.cons.injEq] at hlaid
  have hnext := le_nextPos (N := N) (u := 16) R (traceAlign e.size)
  have hlt := hi.pointers.lt
  simp only [List.map_cons, endOf_cons] at hlt
  refine ⟨?_, ⟨⟨dvd_nextPos hN.dvd hi.pointers.dvdR (dvd_traceAlign _), hi.pointers.dvdW,
    le_endOf N _ _, by omega⟩, rfl, hi.pointers.wrPtr⟩, hlaid.2,
    fun f hf => ⟨(hi.stored f (List.mem_cons_of_mem _ hf)).hdr, fun hcopied =>
      (hi.stored f (List.mem_cons_of_mem _ hf)).bytes (hrefused hcopied)⟩,
    fun f hf => hi.small f (List.mem_cons_of_mem _ hf), ?_, ⟨rfl, hgiven⟩, hi.valid, hi.wrLock,
    hi.bug, hi.outside⟩
  · simp [hi.split]
  · intro f hf
    rcases List.mem_append.mp hf with hf | hf
    · exact hi.doneCommitted f hf
    · rw [List.mem_singleton.mp hf]
      exact hc

theorem rdLock_eq_zero (hi : Inv N s R done pending) (hheld : s.held = none) :
    s.shared.chdr.rdLock = 0 := by
  have hread := hi.reading
  unfold Reading at hread
  simp only [hheld] at hread
  exact hread.1

theorem rdLock_eq_one (hi : Inv N s R done pending) {hdr : ℕ} (hheld : s.held = some hdr) :
    s.shared.chdr.rdLock = 1 := by
  have hread := hi.reading
  unfold Reading at hread
  simp only [hheld] at hread
  exact hread.1

theorem given_of_not_held (hi : Inv N s R done pending) (hheld : s.held = none) :
    Handed s.shared.refused s.given done := by
  have hread := hi.reading
  unfold Reading at hread
  simp only [hheld] at hread
  exact hread.2

/-- A pop while a read buffer is held. -/
theorem octfTracePop_busy (ho : h.Opened N) (hi : Inv N s R done pending) {hdr : ℕ}
    (hheld : s.held = some hdr) (buffer : List UInt8) :
    octfTracePop h.lib h.consumer buffer s.shared = (.error .EBUSY, s.shared) := by
  have hlock := hi.rdLock_eq_one hheld
  unfold octfTracePop tryLockRd
  simp [hi.valid, ho.consumerMode, hlock]

/-- What a pop returns and leaves behind when no read buffer is held. -/
theorem octfTracePop_eq (ho : h.Opened N) (hi : Inv N s R done pending) (hheld : s.held = none)
    (buffer : List UInt8) :
    octfTracePop h.lib h.consumer buffer s.shared =
      match readable pending with
      | none => (.error (noEvent s.shared), s.shared)
      | some e =>
        if buffer.length < e.size then (.error .ENOSPC, s.shared)
        else (.ok (h.lib.memcpyS buffer (s.shared.ring.load e.ptr e.size), e.size),
          consumed N R e (s.shared.noteCopy buffer.length)) := by
  have hlock := hi.rdLock_eq_zero hheld
  unfold octfTracePop tryLockRd
  simp only [hi.valid, Bool.not_true, Bool.false_eq_true, if_false, ho.consumerMode, ne_eq,
    not_true_eq_false, if_pos hlock, hi.getRdHdr_eq ho 1]
  cases hr : readable pending with
  | none =>
    simp only [Option.map_none, setRdLock_unlock hlock]
    rfl
  | some e =>
    obtain ⟨es, rfl, _⟩ := readable_eq_some hr
    have hmem : e ∈ e :: es := List.mem_cons_self ..
    obtain ⟨_, hptr, _⟩ := hi.inside ho.sized hmem
    have hle := le_traceAlign e.size
    have hhdr : readHdr (s.shared.setRdLock 1).ring e.hdr = ⟨e.committed, e.size, e.ptr⟩ :=
      (hi.stored e hmem).hdr
    simp only [Option.map_some, hhdr, hi.integrityCheck_pending ho.sized ho.consumerSize hmem,
      Bool.not_true, Bool.false_eq_true, if_false, setRdLock_unlock hlock]
    rw [touch_of_le (by rw [ho.consumerSize]; omega),
      hi.moveRdPtr_eq ho ((s.shared.setRdLock 1).noteCopy buffer.length) rfl]
    rfl

/-- The bytes that a pop hands out of its buffer. -/
def popped (h : Handles) (buffer : List UInt8) (m : Shared) (e : Event) : List UInt8 :=
  (h.lib.memcpyS buffer (m.ring.load e.ptr e.size)).take e.size

/-- They are those of the event, unless a copy was refused. -/
theorem popped_eq (ho : h.Opened N) (hi : Inv N s R done pending) {e : Event} (he : e ∈ pending)
    {buffer : List UInt8} (hfit : e.size ≤ buffer.length)
    (hcopied : (s.shared.noteCopy buffer.length).refused = false) :
    popped h buffer s.shared e = e.bytes := by
  obtain ⟨hrefused, hbound⟩ := Shared.of_noteCopy hcopied
  have hlen : e.bytes.length = e.size := by
    rw [← (hi.stored e he).bytes hrefused, Memory.length_load]
  rw [popped, (hi.stored e he).bytes hrefused]
  rcases Nat.eq_zero_or_pos e.size with h0 | hpos
  · rw [h0] at hlen
    rw [h0, List.take_zero, List.length_eq_zero_iff.mp hlen]
  · rw [ho.lawful.memcpyS_eq buffer e.bytes (by omega) (by omega) hbound, ← hlen, List.take_left']
    rfl

/-- The session after a pop: the readable event is handed out, or nothing happens. -/
theorem pop_eq (ho : h.Opened N) (hi : Inv N s R done pending) (buffer : List UInt8) :
    (s.held = none ∧ ∃ e es, pending = e :: es ∧ e.committed = true ∧
      e.size ≤ buffer.length ∧ s.pop h buffer =
        { s with
          shared := consumed N R e (s.shared.noteCopy buffer.length)
          given := s.given ++ [(e.size, popped h buffer s.shared e)]
          held := none }) ∨
    (s.pop h buffer = s ∧ ∀ e es, s.held = none → pending = e :: es → e.committed = true →
      buffer.length < e.size) := by
  unfold Session.pop
  rcases Option.eq_none_or_eq_some s.held with hheld | ⟨hdr, hheld⟩
  · rw [hi.octfTracePop_eq ho hheld buffer]
    cases hr : readable pending with
    | none =>
      right
      refine ⟨rfl, ?_⟩
      rintro e es - rfl hc
      simp [readable, hc] at hr
    | some e =>
      obtain ⟨es, rfl, hc⟩ := readable_eq_some hr
      simp only
      by_cases hfit : buffer.length < e.size
      · right
        simp only [if_pos hfit, true_and]
        rintro f fs - hpend _
        obtain ⟨rfl, rfl⟩ := List.cons.inj hpend
        exact hfit
      · left
        refine ⟨hheld, e, es, rfl, hc, by omega, ?_⟩
        simp only [if_neg hfit, hheld]
        rfl
  · right
    rw [hi.octfTracePop_busy ho hheld]
    exact ⟨rfl, fun _ _ hnone => by simp [hheld] at hnone⟩

theorem pop (ho : h.Opened N) (hi : Inv N s R done pending) (buffer : List UInt8) :
    ∃ R' done' pending', Inv N (s.pop h buffer) R' done' pending' := by
  rcases hi.pop_eq ho buffer with ⟨hheld, e, es, rfl, hc, hfit, heq⟩ | ⟨heq, _⟩
  · have hrefused : (s.shared.noteCopy buffer.length).refused = false → s.shared.refused = false :=
      fun hcopied => (Shared.of_noteCopy hcopied).1
    rw [heq]
    exact ⟨_, _, _, hi.advance ho.sized hc hrefused ((hi.given_of_not_held hheld).snoc hrefused
      (hi.popped_eq ho (List.mem_cons_self ..) hfit))⟩
  · rw [heq]
    exact ⟨R, done, pending, hi⟩

/-- What the consumer is told when it holds no read buffer. -/
theorem octfTraceGetRdBuffer_eq (ho : h.Opened N) (hi : Inv N s R done pending)
    (hheld : s.held = none) :
    octfTraceGetRdBuffer h.consumer s.shared =
      match readable pending with
      | none => (.error (noEvent s.shared), s.shared)
      | some e => (.ok (e.hdr, e.ptr, e.size), s.shared.setRdLock 1) := by
  have hlock := hi.rdLock_eq_zero hheld
  unfold octfTraceGetRdBuffer tryLockRd
  simp only [hi.valid, Bool.not_true, Bool.false_eq_true, if_false, ho.consumerMode, ne_eq,
    not_true_eq_false, if_pos hlock, hi.getRdHdr_eq ho 1]
  cases hr : readable pending with
  | none =>
    simp only [Option.map_none, setRdLock_unlock hlock]
    rfl
  | some e =>
    obtain ⟨es, rfl, _⟩ := readable_eq_some hr
    have hmem : e ∈ e :: es := List.mem_cons_self ..
    have hhdr : readHdr (s.shared.setRdLock 1).ring e.hdr = ⟨e.committed, e.size, e.ptr⟩ :=
      (hi.stored e hmem).hdr
    simp only [Option.map_some, hhdr, hi.integrityCheck_pending ho.sized ho.consumerSize hmem,
      Bool.not_true, Bool.false_eq_true, if_false]

/-- The session after a read buffer was asked for. -/
theorem getRdBuffer_eq (ho : h.Opened N) (hi : Inv N s R done pending) :
    (s.held = none ∧ ∃ e es, pending = e :: es ∧ e.committed = true ∧ s.getRdBuffer h =
        { s with
          shared := s.shared.setRdLock 1
          given := s.given ++ [(e.size, s.shared.ring.load e.ptr e.size)]
          held := some e.hdr }) ∨
    (s.getRdBuffer h = s ∧
      ∀ e es, s.held = none → pending = e :: es → e.committed = false) := by
  unfold Session.getRdBuffer octfTraceGetRdBuffer tryLockRd
  simp only [hi.valid, Bool.not_true, Bool.false_eq_true, if_false, ho.consumerMode, ne_eq,
    not_true_eq_false]
  rcases Option.eq_none_or_eq_some s.held with hheld | ⟨hdr, hheld⟩
  · have hlock := hi.rdLock_eq_zero hheld
    simp only [if_pos hlock, hi.getRdHdr_eq ho 1]
    cases hr : readable pending with
    | none =>
      right
      simp only [Option.map_none, setRdLock_unlock hlock, true_and]
      rintro e es - rfl
      cases hc : e.committed with
      | false => rfl
      | true => simp [readable, hc] at hr
    | some e =>
      left
      obtain ⟨es, rfl, hc⟩ := readable_eq_some hr
      have hmem : e ∈ e :: es := List.mem_cons_self ..
      obtain ⟨_, hptr, _⟩ := hi.inside ho.sized hmem
      have hle := le_traceAlign e.size
      have hhdr : readHdr (s.shared.setRdLock 1).ring e.hdr = ⟨e.committed, e.size, e.ptr⟩ :=
        (hi.stored e hmem).hdr
      refine ⟨hheld, e, es, rfl, hc, ?_⟩
      simp only [Option.map_some, hhdr, hi.integrityCheck_pending ho.sized ho.consumerSize hmem,
        Bool.not_true, Bool.false_eq_true, if_false]
      rw [touch_of_le (by rw [ho.consumerSize]; omega)]
      rfl
  · right
    have hlock := hi.rdLock_eq_one hheld
    simp only [hlock, one_ne_zero, if_false, true_and]
    exact fun _ _ hnone => by simp [hheld] at hnone

theorem getRdBuffer (ho : h.Opened N) (hi : Inv N s R done pending) :
    ∃ R' done' pending', Inv N (s.getRdBuffer h) R' done' pending' := by
  rcases hi.getRdBuffer_eq ho with ⟨hheld, e, es, rfl, hc, heq⟩ | ⟨heq, _⟩
  · rw [heq]
    refine ⟨R, done, e :: es, hi.split, ⟨hi.pointers.toPositions, hi.pointers.rdPtr,
      hi.pointers.wrPtr⟩, hi.laid, hi.stored, hi.small,
      hi.doneCommitted, ⟨rfl, e, es, rfl, rfl, hc, ?_⟩, hi.valid, hi.wrLock, hi.bug, hi.outside⟩
    exact (hi.given_of_not_held hheld).snoc id (hi.stored e (List.mem_cons_self ..)).bytes
  · rw [heq]
    exact ⟨R, done, pending, hi⟩

/-- The session after the held read buffer was released. -/
theorem releaseRdBuffer_eq (ho : h.Opened N) (hi : Inv N s R done pending) {hdr : ℕ}
    (hheld : s.held = some hdr) :
    ∃ e es, pending = e :: es ∧ e.committed = true ∧
      Handed s.shared.refused s.given (done ++ [e]) ∧ s.releaseRdBuffer h =
        { s with shared := consumed N R e s.shared, held := none } := by
  have hread := hi.reading
  unfold Reading at hread
  simp only [hheld] at hread
  obtain ⟨_, e, es, rfl, rfl, hc, hgiven⟩ := hread
  have hmem : e ∈ e :: es := List.mem_cons_self ..
  obtain ⟨hfit, _, _⟩ := hi.inside ho.sized hmem
  refine ⟨e, es, rfl, hc, hgiven, ?_⟩
  unfold Session.releaseRdBuffer octfTraceReleaseRdBuffer
  simp only [hheld, hi.valid, Bool.not_true, Bool.false_eq_true, if_false, ho.consumerMode,
    ne_eq, not_true_eq_false]
  rw [touch_of_le (by rw [ho.consumerSize]; exact hfit), (hi.stored e hmem).hdr,
    hi.moveRdPtr_eq ho s.shared rfl]
  simp only [hi.integrityCheck_pending ho.sized ho.consumerSize hmem, Bool.not_true,
    Bool.false_eq_true, if_false]
  rfl

theorem releaseRdBuffer (ho : h.Opened N) (hi : Inv N s R done pending) :
    ∃ R' done' pending', Inv N (s.releaseRdBuffer h) R' done' pending' := by
  cases hheld : s.held with
  | none =>
    refine ⟨R, done, pending, ?_⟩
    unfold Session.releaseRdBuffer
    simpa only [hheld] using hi
  | some hdr =>
    obtain ⟨e, es, rfl, hc, hgiven, heq⟩ := hi.releaseRdBuffer_eq ho hheld
    rw [heq]
    exact ⟨_, _, _, hi.advance ho.sized hc id hgiven⟩

/-- Every operation whose event size, if any, is at most `2 ^ 32 - 16` keeps the invariant. -/
theorem step (ho : h.Opened N) (hi : Inv N s R done pending) {op : Op}
    (hop : op.SmallEvent) :
    ∃ R' done' pending', Inv N (Session.step h op s) R' done' pending' := by
  cases op with
  | push event =>
    obtain ⟨p, hp⟩ := hi.push ho hop
    exact ⟨R, done, p, hp⟩
  | getWrBuffer size =>
    obtain ⟨p, hp⟩ := hi.getWrBuffer ho hop
    exact ⟨R, done, p, hp⟩
  | fill i off bytes =>
    obtain ⟨p, hp⟩ := hi.fill ho i off bytes
    exact ⟨R, done, p, hp⟩
  | commitWrBuffer i =>
    obtain ⟨p, hp⟩ := hi.commitWrBuffer ho i
    exact ⟨R, done, p, hp⟩
  | pop buffer => exact hi.pop ho buffer
  | getRdBuffer => exact hi.getRdBuffer ho
  | releaseRdBuffer => exact hi.releaseRdBuffer ho

end Inv

end Octf.Trace
