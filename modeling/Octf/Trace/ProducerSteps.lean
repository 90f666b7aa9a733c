import Octf.Trace.Invariant

/-! The producer's operations keep the session invariant. Each first gets the equation for
what it returns and leaves behind on a ring that satisfies the invariant. -/
namespace Octf.Trace
open Foundation Foundation.RecordRing

/-- The ring has room for an event of this size behind `W` while `R` is being read. -/
def Accepts (N R W size : ℕ) : Prop := nextPos N 16 W (traceAlign size) < R + N

instance (N R W size : ℕ) : Decidable (Accepts N R W size) := Nat.decLt _ _

theorem Accepts.align_le {N R W size : ℕ} (h : Accepts N R W size) (hRW : R ≤ W) :
    traceAlign size ≤ N := by
  have hnext := le_nextPos (N := N) (u := 16) W (traceAlign size)
  unfold Accepts at h
  omega

/-- No copy was refused before, and this one is not. -/
theorem Shared.of_noteCopy {m : Shared} {dmax : ℕ} (h : (m.noteCopy dmax).refused = false) :
    m.refused = false ∧ dmax ≤ rsizeMaxMem := by
  simpa [noteCopy] using h

theorem Handles.Opened.findSpace_eq {h : Handles} {N : ℕ} (ho : h.Opened N) {R₀ V : ℕ}
    (hp : Positions N R₀ V) (size : ℕ) (m : Shared) :
    findSpace h.producer size (R₀ % N) (V % N) m =
      if nextPos N 16 V (alignedSize size) < R₀ + N then
        (some (V % N, payloadPos N 16 V (alignedSize size) % N), m)
      else (none, m) := by
  have hsize := ho.producerSize
  have hsized := ho.sized
  subst hsize
  exact Trace.findSpace_eq hsized hp size m

namespace Inv

variable {h : Handles} {N R : ℕ} {s : Session} {done pending : List Event}

/-- The allocation of an event, seen from the session. -/
theorem allocateEvent_eq (ho : h.Opened N) (hi : Inv N s R done pending) {size : ℕ}
    (hsize : size ≤ 2 ^ 32 - 16) :
    allocateEvent h.producer size s.shared =
      if Accepts N R (W N R pending) size then
        (some (W N R pending % N), s.shared.allocated N (W N R pending) size)
      else (none, s.shared) := by
  have ht : WellSized h.producer.ringSize := by rw [ho.producerSize]; exact ho.sized
  have hp : Pointers h.producer.ringSize s.shared R (W N R pending) := by
    rw [ho.producerSize]
    exact hi.pointers
  rw [Trace.allocateEvent_eq ht hp hi.wrLock, ho.producerSize, alignedSize_of_le hsize]
  rfl

/-- The header of a fresh record, as the operations read it back. -/
theorem readHdr_allocated (ho : h.Opened N) {size : ℕ} (hsize : size ≤ 2 ^ 32 - 16) (v : ℕ)
    (m : Shared) : readHdr (m.allocated N v size).ring (v % N) =
      ⟨false, size, payloadPos N 16 v (traceAlign size) % N⟩ := by
  have hlt := Nat.mod_lt (payloadPos N 16 v (traceAlign size)) ho.sized.pos
  have hN := ho.sized.lt
  rw [← alignedSize_of_le hsize] at hlt ⊢
  exact readHdr_writeHdr m.ring (v % N) (by simp only; omega) (by simp only; omega)

/-- The integrity check on a fresh record passes. -/
theorem integrityCheck_allocated (ho : h.Opened N) (hi : Inv N s R done pending) {size : ℕ}
    (hfit : Accepts N R (W N R pending) size) :
    integrityCheck h.producer (payloadPos N 16 (W N R pending) (traceAlign size) % N) size =
      true ∧ payloadPos N 16 (W N R pending) (traceAlign size) % N + size ≤ N := by
  have hpay := payload_le (N := N) (u := 16) (v := W N R pending) ho.sized.pos
    (hfit.align_le hi.pointers.le)
  have hle := le_traceAlign size
  refine ⟨integrityCheck_of_le ?_ ?_ ?_, by omega⟩ <;> rw [ho.producerSize]
  · exact ho.sized
  · exact Nat.mod_lt _ ho.sized.pos
  · omega

/-- The event a push appends. -/
abbrev pushed (N v : ℕ) (event : List UInt8) : Event :=
  ⟨Place.ofPos N v event.length, event, true⟩

/-- What the copy of a push leaves in its buffer. -/
def copied (h : Handles) (N v : ℕ) (event : List UInt8) (m : Shared) : List UInt8 :=
  h.lib.memcpyS ((m.allocated N v event.length).ring.load
    (payloadPos N 16 v (traceAlign event.length) % N) event.length) event

theorem length_copied (ho : h.Opened N) (v : ℕ) (event : List UInt8) (m : Shared) :
    (copied h N v event m).length = event.length := by
  rw [copied, ho.lawful.length_memcpyS, Memory.length_load]

theorem copied_eq (ho : h.Opened N) (v : ℕ) {event : List UInt8} (m : Shared)
    (hbound : event.length ≤ rsizeMaxMem) : copied h N v event m = event :=
  ho.lawful.memcpyS_whole (by simp) (by simpa using hbound)

/-- The ring after a push has allocated its record: copied bytes and the `ready` bit. -/
def pushedRing (h : Handles) (N v : ℕ) (event : List UInt8) (m : Shared) : Memory :=
  setReady ((m.allocated N v event.length).ring.store
    (payloadPos N 16 v (traceAlign event.length) % N) (copied h N v event m)) (v % N) true

/-- The shared memory after a push. -/
def afterPush (h : Handles) (N v : ℕ) (event : List UInt8) (m : Shared) : Shared :=
  { (m.allocated N v event.length).noteCopy event.length with ring := pushedRing h N v event m }

theorem octfTracePush_eq (ho : h.Opened N) (hi : Inv N s R done pending) {event : List UInt8}
    (hsize : event.length ≤ 2 ^ 32 - 16) :
    octfTracePush h.lib h.producer event s.shared =
      if Accepts N R (W N R pending) event.length then
        (.ok (), afterPush h N (W N R pending) event s.shared)
      else (.error .ENOSPC, s.shared.addLost 1) := by
  unfold octfTracePush
  simp only [hi.valid, Bool.not_true, Bool.false_eq_true, if_false, ho.producerMode, ne_eq,
    not_true_eq_false, hi.allocateEvent_eq ho hsize]
  by_cases hfit : Accepts N R (W N R pending) event.length
  · obtain ⟨hcheck, hend⟩ := hi.integrityCheck_allocated ho hfit
    simp only [if_pos hfit, readHdr_allocated ho hsize, hcheck, Bool.not_true,
      Bool.false_eq_true, if_false]
    rw [touch_of_le (by rw [ho.producerSize]; exact hend)]
    rfl
  · simp only [if_neg hfit]

theorem pushedRing_outside (ho : h.Opened N) {v : ℕ} (event : List UInt8) (m : Shared) {a : ℕ}
    (ha : (Place.ofPos N v event.length).Outside a) :
    pushedRing h N v event m a = m.ring a := by
  have hlength := length_copied ho v event m
  obtain ⟨hh, hp⟩ := ha
  simp only [Place.ofPos] at hh hp
  have hle := le_traceAlign event.length
  rw [pushedRing, setReady_of_ne _ _ (by omega)]
  have hstore : ∀ ring : Memory,
      ring.store (payloadPos N 16 v (traceAlign event.length) % N) (copied h N v event m) a =
        ring a := by
    intro ring
    rcases hp with hp | hp
    · exact ring.store_of_lt _ hp
    · exact ring.store_of_ge _ (by omega)
  rw [hstore]
  exact writeHdr_of_outside m.ring _ hh

/-- Header and payload of one record do not meet. -/
theorem record_apart (hi : Inv N s R done pending) {size : ℕ}
    (hfit : Accepts N R (W N R pending) size) :
    Place.Apart (W N R pending % N) 16
      (payloadPos N 16 (W N R pending) (traceAlign size) % N) (traceAlign size) := by
  have hpay := le_payloadPos (N := N) (u := 16) (W N R pending) (traceAlign size)
  have hle : R ≤ W N R pending := hi.pointers.le
  unfold Accepts nextPos at hfit
  exact cells_disjoint hpay (by omega)

/-- A header keeps its place before the copied bytes, and these before the `ready` bit. -/
theorem pushedRing_eq (ho : h.Opened N) (hi : Inv N s R done pending) {event : List UInt8}
    (hsize : event.length ≤ 2 ^ 32 - 16) (hfit : Accepts N R (W N R pending) event.length) :
    readHdr (pushedRing h N (W N R pending) event s.shared) (W N R pending % N) =
        ⟨true, event.length, payloadPos N 16 (W N R pending) (traceAlign event.length) % N⟩ ∧
      (pushedRing h N (W N R pending) event s.shared).load
          (payloadPos N 16 (W N R pending) (traceAlign event.length) % N) event.length =
        copied h N (W N R pending) event s.shared := by
  have hapart := hi.record_apart hfit
  have hle := le_traceAlign event.length
  have hlength := length_copied ho (W N R pending) event s.shared
  unfold Place.Apart at hapart
  constructor
  · refine (readHdr_setReady _ (W N R pending % N) true).trans ?_
    have hkeep : readHdr ((s.shared.allocated N (W N R pending) event.length).ring.store
        (payloadPos N 16 (W N R pending) (traceAlign event.length) % N)
          (copied h N (W N R pending) event s.shared)) (W N R pending % N) =
        readHdr (s.shared.allocated N (W N R pending) event.length).ring
          (W N R pending % N) := by
      apply readHdr_congr
      intro i hi'
      rcases hapart with ha | ha
      · exact Memory.store_of_lt _ _ (by omega)
      · exact Memory.store_of_ge _ _ (by omega)
    rw [hkeep, readHdr_allocated ho hsize]
  · have hload : (pushedRing h N (W N R pending) event s.shared).load
        (payloadPos N 16 (W N R pending) (traceAlign event.length) % N) event.length =
        ((s.shared.allocated N (W N R pending) event.length).ring.store
          (payloadPos N 16 (W N R pending) (traceAlign event.length) % N)
            (copied h N (W N R pending) event s.shared)).load
          (payloadPos N 16 (W N R pending) (traceAlign event.length) % N) event.length := by
      apply Memory.load_congr
      intro i hi'
      exact setReady_of_ne _ _ (by omega)
    rw [hload, ← hlength, Memory.load_store_same]

theorem pushed_inRing (ho : h.Opened N) (hi : Inv N s R done pending) {event : List UInt8}
    (hsize : event.length ≤ 2 ^ 32 - 16) (hfit : Accepts N R (W N R pending) event.length) :
    (pushed N (W N R pending) event).InRing (afterPush h N (W N R pending) event s.shared).refused
      (pushedRing h N (W N R pending) event s.shared) := by
  obtain ⟨hhdr, hload⟩ := hi.pushedRing_eq ho hsize hfit
  refine ⟨hhdr, fun hcopied => hload.trans (copied_eq ho _ _ ?_)⟩
  exact (Shared.of_noteCopy hcopied).2

theorem addLost (hi : Inv N s R done pending) (n : ℕ) :
    Inv N { s with shared := s.shared.addLost n } R done pending :=
  ⟨hi.split, ⟨hi.pointers.toPositions, hi.pointers.rdPtr, hi.pointers.wrPtr⟩, hi.laid, hi.stored,
    hi.small, hi.doneCommitted, hi.reading, hi.valid, hi.wrLock, hi.bug, hi.outside⟩

/-- The session after a push. -/
theorem push_eq (ho : h.Opened N) (hi : Inv N s R done pending) {event : List UInt8}
    (hsize : event.length ≤ 2 ^ 32 - 16) :
    s.push h event =
      if Accepts N R (W N R pending) event.length then
        { s with
          shared := afterPush h N (W N R pending) event s.shared
          accepted := s.accepted ++ [pushed N (W N R pending) event] }
      else { s with shared := s.shared.addLost 1 } := by
  unfold Session.push
  rw [hi.octfTracePush_eq ho hsize]
  by_cases hfit : Accepts N R (W N R pending) event.length
  · simp only [if_pos hfit]
    have hwr : s.shared.phdr.wrPtr = W N R pending % N := hi.pointers.wrPtr
    have hptr : (readHdr (afterPush h N (W N R pending) event s.shared).ring
        (W N R pending % N)).dataPtr = _ :=
      congrArg TraceEventHdr.dataPtr (hi.pushedRing_eq ho hsize hfit).1
    simp only [hwr, hptr]
    rfl
  · simp only [if_neg hfit]

theorem push (ho : h.Opened N) (hi : Inv N s R done pending) {event : List UInt8}
    (hsize : event.length ≤ 2 ^ 32 - 16) :
    ∃ pending', Inv N (s.push h event) R done pending' := by
  rw [hi.push_eq ho hsize]
  split_ifs with hfit
  · refine ⟨pending ++ [pushed N (W N R pending) event], hi.append ho.sized hfit hsize rfl
      (hi.pushed_inRing ho hsize hfit) (fun a ha => pushedRing_outside ho event s.shared ha) rfl ?_
      (fun hcopied => (Shared.of_noteCopy hcopied).1) hi.bug hi.outside⟩
    simp only [afterPush, Shared.noteCopy, Shared.allocated, alignedSize_of_le hsize, Place.ofPos]
  · exact ⟨pending, hi.addLost 1⟩

theorem octfTraceGetWrBuffer_eq (ho : h.Opened N) (hi : Inv N s R done pending) {size : ℕ}
    (hsize : size ≤ 2 ^ 32 - 16) :
    octfTraceGetWrBuffer h.producer size s.shared =
      if Accepts N R (W N R pending) size then
        (.ok (W N R pending % N, payloadPos N 16 (W N R pending) (traceAlign size) % N),
          s.shared.allocated N (W N R pending) size)
      else (.error .ENOSPC, s.shared.addLost 1) := by
  unfold octfTraceGetWrBuffer
  simp only [hi.valid, Bool.not_true, Bool.false_eq_true, if_false, ho.producerMode, ne_eq,
    not_true_eq_false, hi.allocateEvent_eq ho hsize]
  by_cases hfit : Accepts N R (W N R pending) size
  · obtain ⟨hcheck, _⟩ := hi.integrityCheck_allocated ho hfit
    simp only [if_pos hfit, readHdr_allocated ho hsize, hcheck, Bool.not_true,
      Bool.false_eq_true, if_false]
  · simp only [if_neg hfit]

/-- The event a reservation appends; its bytes are what the buffer happens to hold. -/
abbrev reserved (N v size : ℕ) (m : Shared) : Event :=
  ⟨Place.ofPos N v size,
    (m.allocated N v size).ring.load (payloadPos N 16 v (traceAlign size) % N) size, false⟩

theorem getWrBuffer (ho : h.Opened N) (hi : Inv N s R done pending) {size : ℕ}
    (hsize : size ≤ 2 ^ 32 - 16) :
    ∃ pending', Inv N (s.getWrBuffer h size) R done pending' := by
  unfold Session.getWrBuffer
  rw [hi.octfTraceGetWrBuffer_eq ho hsize]
  by_cases hfit : Accepts N R (W N R pending) size
  · simp only [if_pos hfit]
    refine ⟨pending ++ [reserved N (W N R pending) size s.shared],
      hi.append ho.sized hfit hsize rfl ⟨readHdr_allocated ho hsize _ _, fun _ => rfl⟩
        (fun a ha => writeHdr_of_outside s.shared.ring _ ha.1) rfl ?_ id hi.bug hi.outside⟩
    simp only [Shared.allocated, alignedSize_of_le hsize]
  · simp only [if_neg hfit]
    exact ⟨pending, hi.addLost 1⟩

/-- Header and payload of a pending event do not meet. -/
theorem self_apart (hN : WellSized N) (hi : Inv N s R done pending) {e : Event}
    (he : e ∈ pending) : Place.Apart e.hdr 16 e.ptr (traceAlign e.size) := by
  have hmem : e.toPlace ∈ places N R (pending.map fun e => e.size) := by
    rw [← hi.laid]
    exact List.mem_map_of_mem he
  obtain ⟨x, _, hRx, hend, heq⟩ := exists_of_mem_places hN.dvd hi.pointers.dvdR hmem
  have hpay := le_payloadPos (N := N) (u := 16) x (traceAlign e.size)
  have hlt := hi.pointers.lt
  unfold nextPos at hend
  rw [heq]
  exact cells_disjoint hpay (by simp only [Place.ofPos]; omega)

/-- Storing bytes into the buffer of a pending event. -/
theorem fill_inRing (hN : WellSized N) (hi : Inv N s R done pending) {e : Event}
    (he : e ∈ pending) {off : ℕ} {bytes : List UInt8} (hoff : off + bytes.length ≤ e.size) :
    ({ e with bytes := overwrite e.bytes off bytes } : Event).InRing s.shared.refused
      (s.shared.ring.store (e.ptr + off) bytes) := by
  have hapart := hi.self_apart hN he
  have hle := le_traceAlign e.size
  have hin := hi.stored e he
  unfold Place.Apart at hapart
  constructor
  · rw [← hin.hdr]
    apply readHdr_congr
    intro i hi'
    rcases hapart with ha | ha
    · exact Memory.store_of_lt _ _ (by simp only; omega)
    · exact Memory.store_of_ge _ _ (by simp only; omega)
  · intro hcopied
    have hload := s.shared.ring.load_store_within (p := e.ptr) bytes hoff
    rw [hin.bytes hcopied] at hload
    exact hload

theorem fill (ho : h.Opened N) (hi : Inv N s R done pending) (i off : ℕ) (bytes : List UInt8) :
    ∃ pending', Inv N (s.fill h i off bytes) R done pending' := by
  unfold Session.fill
  cases he : s.accepted[i]? with
  | none => exact ⟨pending, hi⟩
  | some e =>
    simp only
    split_ifs with hc
    · obtain ⟨j, _, hj⟩ := hi.uncommitted_index he hc.1
      have hmem := List.mem_of_getElem? hj
      obtain ⟨_, hptr, _⟩ := hi.inside ho.sized hmem
      have hle := le_traceAlign e.size
      rw [touch_of_le (by rw [ho.producerSize]; omega)]
      obtain ⟨pending', hinv, _⟩ := hi.update ho.sized he hc.1
        (show ({ e with bytes := overwrite e.bytes off bytes } : Event).toPlace = e.toPlace
          from rfl) (hi.fill_inRing ho.sized hmem hc.2) (by
          intro a ha
          rcases ha.2 with ha | ha
          · exact Memory.store_of_lt _ _ (by omega)
          · exact Memory.store_of_ge _ _ (by omega)) id
      exact ⟨pending', hinv⟩
    · exact ⟨pending, hi⟩

/-- A commit finds its header intact and sets the `ready` bit. -/
theorem octfTraceCommitWrBuffer_eq (ho : h.Opened N) (hi : Inv N s R done pending) {e : Event}
    (he : e ∈ pending) :
    octfTraceCommitWrBuffer h.producer e.hdr s.shared =
      (.ok (), { s.shared with ring := setReady s.shared.ring e.hdr true }) := by
  obtain ⟨hhdr, _, _⟩ := hi.inside ho.sized he
  have hcheck := hi.integrityCheck_pending ho.sized ho.producerSize he
  unfold octfTraceCommitWrBuffer
  simp only [hi.valid, Bool.not_true, Bool.false_eq_true, if_false, ho.producerMode, ne_eq,
    not_true_eq_false]
  rw [touch_of_le (by rw [ho.producerSize]; exact hhdr), (hi.stored e he).hdr]
  simp only [hcheck, Bool.not_true, Bool.false_eq_true, if_false]

theorem commit_inRing (hN : WellSized N) (hi : Inv N s R done pending) {e : Event}
    (he : e ∈ pending) :
    ({ e with committed := true } : Event).InRing s.shared.refused
      (setReady s.shared.ring e.hdr true) := by
  have hin := hi.stored e he
  have hapart := hi.self_apart hN he
  have hle := le_traceAlign e.size
  unfold Place.Apart at hapart
  constructor
  · refine (readHdr_setReady _ e.hdr true).trans ?_
    rw [hin.hdr]
  · intro hcopied
    rw [← hin.bytes hcopied]
    apply Memory.load_congr
    intro i hi'
    exact setReady_of_ne _ _ (by simp only at hi' ⊢; omega)

theorem commitWrBuffer (ho : h.Opened N) (hi : Inv N s R done pending) (i : ℕ) :
    ∃ pending', Inv N (s.commitWrBuffer h i) R done pending' := by
  unfold Session.commitWrBuffer
  cases he : s.accepted[i]? with
  | none => exact ⟨pending, hi⟩
  | some e =>
    simp only
    split_ifs with hc
    · obtain ⟨j, _, hj⟩ := hi.uncommitted_index he hc
      have hmem := List.mem_of_getElem? hj
      rw [hi.octfTraceCommitWrBuffer_eq ho hmem]
      obtain ⟨pending', hinv, _⟩ := hi.update ho.sized he hc
        (show ({ e with committed := true } : Event).toPlace = e.toPlace from rfl)
        (hi.commit_inRing ho.sized hmem) (by
          intro a ha
          exact setReady_of_ne _ _ (by have := ha.1; omega)) id
      exact ⟨pending', hinv⟩
    · exact ⟨pending, hi⟩

end Inv

end Octf.Trace
