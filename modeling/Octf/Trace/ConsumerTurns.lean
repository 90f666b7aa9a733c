import Octf.Trace.ProducerTurns

/-! The consumer's turns keep the session invariant. What its local variables say survives
the producer's turns, because committed events stay and new ones come behind them. -/
namespace Octf.Trace
open Foundation Foundation.RecordRing

/-- The consumer is inside a call that has the read lock. -/
def Locked (s : Session) : Prop := s.held = none ∧ s.shared.chdr.rdLock = 1

/-- The read lock of a consumer between calls. -/
def lockOf (s : Session) : ℕ := if s.held.isSome then 1 else 0

/-- The end of the trace is answered only of a closed one without committed events. -/
def AnswerOk (s : Session) (pending : List Event) (answer : Option Errno) : Prop :=
  answer = some .EBADF → s.shared.phdr.closed ≠ 0 ∧ ∀ e ∈ pending, e.committed = false

theorem answerOk_of_ne {s : Session} {pending : List Event} {answer : Option Errno}
    (h : answer ≠ some .EBADF) : AnswerOk s pending answer := fun hend => absurd hend h

/-- The first pending event is committed and has this header. -/
def Ready (pending : List Event) (hdr : ℕ) (e : Event) : Prop :=
  pending.head? = some e ∧ e.committed = true ∧ e.hdr = hdr

/-- What the consumer's local variables say. -/
def ConsumerOk (N R : ℕ) (s : Session) (pending : List Event) : ConsumerPc → Prop
  | .idle answer => s.shared.chdr.rdLock = lockOf s ∧ AnswerOk s pending answer ∧
      (answer = some .EBADF → s.held = none)
  | .lockRd _ => s.shared.chdr.rdLock = lockOf s
  | .readRdPtr _ => Locked s
  | .readWrPtr _ rdp => Locked s ∧ rdp = R % N
  | .readReady _ rdp => Locked s ∧ rdp = R % N ∧ pending ≠ []
  | .readClosed => Locked s ∧
      (s.shared.phdr.closed ≠ 0 → ∀ e ∈ pending, e.committed = false)
  | .take _ hdr => Locked s ∧ ∃ e, Ready pending hdr e
  | .moveRdPtr hdr event => Locked s ∧ ∃ e, Ready pending hdr e ∧ event.1 = e.size ∧
      (s.shared.refused = false → event.2 = e.bytes)
  | .unlockRd answer => s.held = none ∧ AnswerOk s pending answer
  | .release hdr => s.held = some hdr

/-- What a consumer's turn leaves for the producer, and for itself. -/
structure ConsumerKeeps (N R : ℕ) (pending : List Event) (s s' : Session) (pc' : ConsumerPc) :
    Prop where
  inv : ∃ R' done' pending', Inv N s'.unlocked R' done' pending' ∧ R ≤ R' ∧
    Inv.W N R' pending' = Inv.W N R pending ∧ pending' <:+ pending ∧
      ConsumerOk N R' s' pending' pc'
  ring : s'.shared.ring = s.shared.ring
  accepted : s'.accepted = s.accepted
  closed : s'.shared.phdr.closed = s.shared.phdr.closed

section Keeps

variable {h : Handles} {N R : ℕ} {s : Session} {done pending : List Event}

/-- A turn that takes nothing out of the ring. -/
theorem keeps_chdr {s' : Session} {pc' : ConsumerPc}
    (hinv : Inv N s'.unlocked R done pending) (hpc : ConsumerOk N R s' pending pc')
    (hring : s'.shared.ring = s.shared.ring) (haccepted : s'.accepted = s.accepted)
    (hclosed : s'.shared.phdr.closed = s.shared.phdr.closed) :
    ConsumerKeeps N R pending s s' pc' :=
  ⟨⟨R, done, pending, hinv, le_rfl, rfl, List.suffix_rfl, hpc⟩, hring, haccepted, hclosed⟩

theorem lockOf_of_none (hheld : s.held = none) : lockOf s = 0 := by simp [lockOf, hheld]

theorem keeps_lockRd (hi : Inv N s.unlocked R done pending) {call : ConsumerCall} {r : Reader}
    (hpc : ConsumerOk N R s pending (.lockRd r)) :
    ConsumerKeeps N R pending s (consumerStep h call s (.lockRd r)).1
      (consumerStep h call s (.lockRd r)).2 := by
  have hlock : s.shared.chdr.rdLock = lockOf s := hpc
  unfold consumerStep tryLockRd
  rcases Option.eq_none_or_eq_some s.held with hheld | ⟨hdr, hheld⟩
  · have hfree : s.shared.chdr.rdLock = 0 := by rw [hlock, lockOf_of_none hheld]
    simp only [if_pos hfree]
    refine keeps_chdr hi ?_ rfl rfl rfl
    exact ⟨hheld, rfl⟩
  · have hbusy : ¬ s.shared.chdr.rdLock = 0 := by
      simp [hlock, lockOf, hheld]
    simp only [if_neg hbusy]
    refine keeps_chdr hi ?_ rfl rfl rfl
    exact ⟨hlock, answerOk_of_ne (by decide), by simp⟩

/-- The header of a held buffer passes the checks of the release. -/
theorem keeps_idle_consumer (ho : h.Opened N) (hi : Inv N s.unlocked R done pending)
    {call : ConsumerCall} {answer : Option Errno}
    (hpc : ConsumerOk N R s pending (.idle answer)) :
    ConsumerKeeps N R pending s (consumerStep h call s (.idle answer)).1
      (consumerStep h call s (.idle answer)).2 := by
  have hvalid : isTraceValid s.shared = true := hi.valid
  obtain ⟨hlock, _⟩ := hpc
  cases call with
  | read r =>
    unfold consumerStep
    simp only [hvalid, ho.consumerMode]
    exact keeps_chdr hi hlock rfl rfl rfl
  | releaseRdBuffer =>
    simp only [consumerStep, hvalid, ho.consumerMode]
    rcases Option.eq_none_or_eq_some s.held with hheld | ⟨hdr, hheld⟩
    · simp only [hheld]
      refine keeps_chdr hi ?_ rfl rfl rfl
      exact ⟨hlock, answerOk_of_ne (by decide), by simp⟩
    · have hread := hi.reading
      have hheld' : s.unlocked.held = some hdr := hheld
      simp only [Reading, hheld'] at hread
      obtain ⟨_, e, es, rfl, rfl, _, _⟩ := hread
      have hmem : e ∈ e :: es := List.mem_cons_self ..
      obtain ⟨hinside, _, _⟩ := hi.inside ho.sized hmem
      have htouch : s.shared.touch h.consumer e.hdr traceEventHdrSize = s.shared :=
        touch_of_le (by rw [ho.consumerSize]; exact hinside)
      have hhdr : readHdr s.shared.ring e.hdr = ⟨e.committed, e.size, e.ptr⟩ :=
        (hi.stored e hmem).hdr
      simp only [hheld, htouch, hhdr, hi.integrityCheck_pending ho.sized ho.consumerSize hmem,
        bne_self_eq_false, Bool.not_true, Bool.or_self, Bool.false_eq_true, if_false]
      have hinv : Inv N ({ s with held := some e.hdr } : Session).unlocked R done (e :: es) := by
        rw [← hheld]
        exact hi
      exact keeps_chdr hinv rfl rfl rfl rfl

/-- Equal pointers mean that nothing is pending. -/
theorem keeps_readWrPtr (ho : h.Opened N) (hi : Inv N s.unlocked R done pending)
    {call : ConsumerCall} {r : Reader} {rdp : ℕ}
    (hpc : ConsumerOk N R s pending (.readWrPtr r rdp)) :
    ConsumerKeeps N R pending s (consumerStep h call s (.readWrPtr r rdp)).1
      (consumerStep h call s (.readWrPtr r rdp)).2 := by
  obtain ⟨hlocked, rfl⟩ := hpc
  have hwr : s.shared.phdr.wrPtr = Inv.W N R pending % N := hi.pointers.wrPtr
  unfold consumerStep
  simp only [hwr, hi.isEmpty_eq, hi.integrityCheck_rdPtr ho]
  cases pending with
  | nil =>
    refine keeps_chdr hi ?_ rfl rfl rfl
    exact ⟨hlocked, fun _ _ he => absurd he List.not_mem_nil⟩
  | cons e es =>
    refine keeps_chdr hi ?_ rfl rfl rfl
    exact ⟨hlocked, rfl, List.cons_ne_nil e es⟩

/-- A header that is not ready means, once the trace is closed, that no event is. -/
theorem keeps_readReady (ho : h.Opened N) (hi : Inv N s.unlocked R done pending)
    (horder : s.shared.phdr.closed ≠ 0 → CommitsInOrder pending)
    {call : ConsumerCall} {r : Reader} {rdp : ℕ}
    (hpc : ConsumerOk N R s pending (.readReady r rdp)) :
    ConsumerKeeps N R pending s (consumerStep h call s (.readReady r rdp)).1
      (consumerStep h call s (.readReady r rdp)).2 := by
  obtain ⟨hlocked, rfl, hne⟩ := hpc
  obtain ⟨e, es, rfl⟩ := List.exists_cons_of_ne_nil hne
  have hmem : e ∈ e :: es := List.mem_cons_self ..
  have htouch : s.shared.touch h.consumer (R % N) traceEventHdrSize = s.shared :=
    touch_of_le (by
      rw [ho.consumerSize]
      exact head_le ho.sized.dvd ho.sized.pos hi.pointers.dvdR)
  have hhdr : readHdr s.shared.ring (R % N) = ⟨e.committed, e.size, e.ptr⟩ := by
    rw [← hi.head_hdr]
    exact (hi.stored e hmem).hdr
  unfold consumerStep
  simp only [htouch, hhdr]
  cases hc : e.committed with
  | false =>
    refine keeps_chdr hi ?_ rfl rfl rfl
    refine ⟨hlocked, fun hclosed f hf => ?_⟩
    rcases List.mem_cons.mp hf with rfl | hf
    · exact hc
    · exact List.rel_of_pairwise_cons (horder hclosed) hf hc
  | true =>
    refine keeps_chdr hi ?_ rfl rfl rfl
    exact ⟨hlocked, e, rfl, hc, hi.head_hdr⟩

theorem keeps_readClosed (hi : Inv N s.unlocked R done pending) {call : ConsumerCall}
    (hpc : ConsumerOk N R s pending .readClosed) :
    ConsumerKeeps N R pending s (consumerStep h call s .readClosed).1
      (consumerStep h call s .readClosed).2 := by
  obtain ⟨hlocked, hnone⟩ := hpc
  refine keeps_chdr hi ?_ rfl rfl rfl
  refine ⟨hlocked.1, fun hanswer => ?_⟩
  have hclosed : s.shared.phdr.closed ≠ 0 := by
    intro h0
    rw [noEvent, if_neg (not_not.mpr h0)] at hanswer
    exact absurd (Option.some.inj hanswer) (by decide)
  exact ⟨hclosed, hnone hclosed⟩

/-- Noting a copy keeps the invariant: it promises less when one was refused. -/
theorem Inv.noteCopy (hi : Inv N s.unlocked R done pending) (dmax : ℕ) :
    Inv N ({ s with shared := s.shared.noteCopy dmax } : Session).unlocked R done pending := by
  have hmono : (s.shared.noteCopy dmax).refused = false → s.shared.refused = false :=
    fun hcopied => (Shared.of_noteCopy hcopied).1
  refine ⟨hi.split, ⟨hi.pointers.toPositions, hi.pointers.rdPtr, hi.pointers.wrPtr⟩, hi.laid,
    fun e he => ⟨(hi.stored e he).hdr, fun hcopied => (hi.stored e he).bytes (hmono hcopied)⟩,
    hi.small, hi.doneCommitted, ?_, hi.valid, hi.wrLock, hi.bug, hi.outside⟩
  have hread := hi.reading
  unfold Reading at hread ⊢
  rcases Option.eq_none_or_eq_some s.held with hheld | ⟨hdr, hheld⟩
  · simp only [Session.unlocked, hheld] at hread ⊢
    exact ⟨hread.1, hread.2.mono hmono⟩
  · simp only [Session.unlocked, hheld] at hread ⊢
    obtain ⟨hlock, e, es, hpend, hhdr, hc, hgiven⟩ := hread
    exact ⟨hlock, e, es, hpend, hhdr, hc, hgiven.mono hmono⟩

/-- The event behind a ready header is copied out or exposed as it was stored. -/
theorem keeps_take (ho : h.Opened N) (hi : Inv N s.unlocked R done pending)
    {call : ConsumerCall} {r : Reader} {hdr : ℕ}
    (hpc : ConsumerOk N R s pending (.take r hdr)) :
    ConsumerKeeps N R pending s (consumerStep h call s (.take r hdr)).1
      (consumerStep h call s (.take r hdr)).2 := by
  obtain ⟨⟨hheld, hlock⟩, e, hhead, hc, rfl⟩ := hpc
  obtain ⟨es, rfl⟩ := List.head?_eq_some_iff.mp hhead
  have hmem : e ∈ e :: es := List.mem_cons_self ..
  obtain ⟨_, hptr, _⟩ := hi.inside ho.sized hmem
  have hle := le_traceAlign e.size
  have hhdr : readHdr s.shared.ring e.hdr = ⟨e.committed, e.size, e.ptr⟩ :=
    (hi.stored e hmem).hdr
  have htouch : s.shared.touch h.consumer e.ptr e.size = s.shared :=
    touch_of_le (by rw [ho.consumerSize]; omega)
  have hcheck := hi.integrityCheck_pending ho.sized ho.consumerSize hmem
  cases r with
  | pop buffer =>
    simp only [consumerStep, hhdr, hcheck, htouch, Bool.not_true, Bool.false_eq_true, if_false]
    by_cases hfit : buffer.length < e.size
    · rw [if_pos hfit]
      refine keeps_chdr hi ?_ rfl rfl rfl
      exact ⟨hheld, answerOk_of_ne (by decide)⟩
    · rw [if_neg hfit]
      refine keeps_chdr (hi.noteCopy buffer.length) ?_ rfl rfl rfl
      exact ⟨⟨hheld, hlock⟩, e, ⟨rfl, hc, rfl⟩, rfl,
        hi.popped_eq ho hmem (not_lt.mp hfit)⟩
  | getRdBuffer =>
    simp only [consumerStep, hhdr, hcheck, htouch, Bool.not_true, Bool.false_eq_true, if_false]
    have hgiven : Handed s.shared.refused s.given done := hi.given_of_not_held hheld
    have hinv : Inv N ({ s with
        given := s.given ++ [(e.size, s.shared.ring.load e.ptr e.size)]
        held := some e.hdr } : Session).unlocked R done (e :: es) := by
      refine ⟨hi.split, ⟨hi.pointers.toPositions, hi.pointers.rdPtr, hi.pointers.wrPtr⟩,
        hi.laid, hi.stored, hi.small, hi.doneCommitted, ⟨rfl, e, es, rfl, rfl, hc, ?_⟩,
        hi.valid, hi.wrLock, hi.bug, hi.outside⟩
      exact hgiven.snoc id (hi.stored e hmem).bytes
    refine keeps_chdr hinv ?_ rfl rfl rfl
    exact ⟨hlock, answerOk_of_ne (by decide), by simp⟩

/-- Moving the read pointer takes the first pending event out of the ring. -/
theorem keeps_advance (ho : h.Opened N) {e : Event} {es : List Event}
    (hi : Inv N s.unlocked R done (e :: es)) (hc : e.committed = true)
    {given : List (ℕ × List UInt8)} (hgiven : Handed s.shared.refused given (done ++ [e])) :
    ConsumerKeeps N R (e :: es) s
      { s with
        shared := Trace.moveRdPtr h.consumer e.hdr s.shared, given := given, held := none }
      (.unlockRd none) := by
  have hmove := hi.moveRdPtr_eq ho s.shared rfl
  have hnext := le_nextPos (N := N) (u := 16) R (traceAlign e.size)
  rw [hmove]
  exact ⟨⟨_, _, es, hi.advance ho.sized hc id hgiven, by omega, rfl, List.suffix_cons e es,
    ⟨rfl, answerOk_of_ne (by decide)⟩⟩, rfl, rfl, rfl⟩

theorem keeps_moveRdPtr (ho : h.Opened N) (hi : Inv N s.unlocked R done pending)
    {call : ConsumerCall} {hdr : ℕ} {event : ℕ × List UInt8}
    (hpc : ConsumerOk N R s pending (.moveRdPtr hdr event)) :
    ConsumerKeeps N R pending s (consumerStep h call s (.moveRdPtr hdr event)).1
      (consumerStep h call s (.moveRdPtr hdr event)).2 := by
  obtain ⟨⟨hheld, _⟩, e, ⟨hhead, hc, rfl⟩, hsize, hbytes⟩ := hpc
  obtain ⟨es, rfl⟩ := List.head?_eq_some_iff.mp hhead
  have hgiven : Handed s.shared.refused s.given done := hi.given_of_not_held hheld
  have hgiven' : Handed s.shared.refused (s.given ++ [event]) (done ++ [e]) := by
    obtain ⟨size, bytes⟩ := event
    obtain rfl : size = e.size := hsize
    exact hgiven.snoc id hbytes
  have hkeeps := keeps_advance ho hi hc hgiven'
  rw [← hheld] at hkeeps
  exact hkeeps

theorem keeps_release (ho : h.Opened N) (hi : Inv N s.unlocked R done pending)
    {call : ConsumerCall} {hdr : ℕ} (hpc : ConsumerOk N R s pending (.release hdr)) :
    ConsumerKeeps N R pending s (consumerStep h call s (.release hdr)).1
      (consumerStep h call s (.release hdr)).2 := by
  have hread := hi.reading
  have hheld' : s.unlocked.held = some hdr := hpc
  simp only [Reading, hheld'] at hread
  obtain ⟨_, e, es, rfl, rfl, hc, hgiven⟩ := hread
  exact keeps_advance ho hi hc hgiven

/-- Every turn of the consumer. -/
theorem consumerStep_keeps (ho : h.Opened N) (hi : Inv N s.unlocked R done pending)
    (horder : s.shared.phdr.closed ≠ 0 → CommitsInOrder pending) (call : ConsumerCall)
    {pc : ConsumerPc} (hpc : ConsumerOk N R s pending pc) :
    ConsumerKeeps N R pending s (consumerStep h call s pc).1 (consumerStep h call s pc).2 := by
  cases pc with
  | idle answer => exact keeps_idle_consumer ho hi hpc
  | lockRd r => exact keeps_lockRd hi hpc
  | readRdPtr r =>
    refine keeps_chdr hi ?_ rfl rfl rfl
    exact ⟨hpc, hi.pointers.rdPtr⟩
  | readWrPtr r rdp => exact keeps_readWrPtr ho hi hpc
  | readReady r rdp => exact keeps_readReady ho hi horder hpc
  | readClosed => exact keeps_readClosed hi hpc
  | take r hdr => exact keeps_take ho hi hpc
  | moveRdPtr hdr event => exact keeps_moveRdPtr ho hi hpc
  | unlockRd answer =>
    refine keeps_chdr hi ?_ rfl rfl rfl
    exact ⟨(lockOf_of_none hpc.1).symm, hpc.2, fun _ => hpc.1⟩
  | release hdr => exact keeps_release ho hi hpc

end Keeps

end Octf.Trace
