import Octf.Trace.ConsumerSteps

/-! From an open to every reachable state: the invariant holds after any operations with
events of at most `2 ^ 32 - 16` bytes, and, while the trace stays valid, after any
operations at all. -/
namespace Octf.Trace
open Foundation Foundation.RecordRing

/-- The ring size of a pool, in either header mode. -/
theorem initRing_sized (hdr : Bool) {size : ℕ} (hmin : octfTraceMinBufferSize ≤ size)
    (h32 : size < 2 ^ 32) : ∃ N, initRing size hdr = .ok N ∧ WellSized N := by
  have hp : producerHdrSize = 64 := rfl
  have hc : consumerHdrSize = 4096 := rfl
  have hmin' : 32768 ≤ size := hmin
  unfold initRing
  rw [if_neg (by rw [hp, hc]; omega)]
  refine ⟨_, rfl, Nat.dvd_mul_left _ _, ?_, ?_⟩ <;> cases hdr <;>
    simp only [hp, hc, Bool.false_eq_true, if_false, if_true, traceAlignment,
      traceEventHdrSize] <;> omega

/-- What a producer's open leaves behind: empty headers but for the identification. -/
theorem initProducer_eq {lib : SafeString} (hlib : lib.Lawful) {size N : ℕ} {hdr : Bool}
    (hring : initRing size hdr = .ok N) {m : Shared} (hempty : OpensEmpty size hdr m) :
    initProducer lib size hdr m = (.ok ⟨.producer, N, N * 2 / 10⟩,
      { m with
        phdr := ⟨traceMagicBuffer, traceVer, 0, 0, 0, 0, hdr.toNat⟩
        chdr := 0
        ring := if size ≤ rsizeMaxMem then 0 else m.ring }) := by
  have hheader : lib.memsetS octfTraceHdrSize m.chdr = 0 := hlib.memsetS_eq _ (by decide)
  unfold initProducer
  rw [hring]
  by_cases hle : size ≤ rsizeMaxMem
  · have hclears : ∀ {α : Type} [Zero α] (x : α), lib.memsetS size x = 0 :=
      fun x => hlib.memsetS_eq x hle
    cases hdr <;> simp only [hclears, hheader, Bool.false_eq_true, if_false, if_true,
      if_pos hle] <;>
      rfl
  · have hkeeps : ∀ {α : Type} [Zero α] (x : α), lib.memsetS size x = x :=
      fun x => hlib.memsetS_refused x (not_le.mp hle)
    obtain ⟨hphdr, hchdr⟩ := hempty.resolve_left hle
    cases hdr with
    | false =>
      simp only [hkeeps, hphdr, hchdr.resolve_left Bool.false_ne_true, Bool.false_eq_true, if_false,
        if_neg hle]
      rfl
    | true =>
      simp only [hkeeps, hphdr, hheader, if_true, if_neg hle]
      rfl

/-- A consumer of the same mode accepts that. -/
theorem initConsumer_eq {size N : ℕ} {hdr : Bool} (hring : initRing size hdr = .ok N)
    {m : Shared} (hphdr : m.phdr = ⟨traceMagicBuffer, traceVer, 0, 0, 0, 0, hdr.toNat⟩) :
    initConsumer size hdr m = .ok ⟨.consumer, N, N * 2 / 10⟩ := by
  unfold initConsumer isTraceValid
  rw [hring]
  cases hdr <;> simp [hphdr]

/-- Every pool of at least the minimal size can be opened. -/
theorem openSession_eq {lib : SafeString} (hlib : lib.Lawful) {hdr : Bool} {size : ℕ}
    (hmin : octfTraceMinBufferSize ≤ size) (h32 : size < 2 ^ 32) {m : Shared}
    (hempty : OpensEmpty size hdr m) :
    ∃ N ring, WellSized N ∧ openSession lib true size hdr m = .ok
      (⟨lib, ⟨.producer, N, N * 2 / 10⟩, ⟨.consumer, N, N * 2 / 10⟩⟩,
        ⟨⟨⟨traceMagicBuffer, traceVer, 0, 0, 0, 0, hdr.toNat⟩, 0, ring, false, false, false⟩,
          [], [], none⟩) := by
  obtain ⟨N, hring, hN⟩ := initRing_sized hdr hmin h32
  refine ⟨N, if size ≤ rsizeMaxMem then 0 else m.ring, hN, ?_⟩
  have hproducer := initProducer_eq hlib hring (m := { m with
    bug := false, outside := false, refused := false }) hempty
  have hconsumer : ∀ ring, initConsumer size hdr
      ⟨⟨traceMagicBuffer, traceVer, 0, 0, 0, 0, hdr.toNat⟩, 0, ring, false, false, false⟩ =
        .ok ⟨.consumer, N, N * 2 / 10⟩ := fun _ => initConsumer_eq hring rfl
  unfold openSession octfTraceOpen
  simp only [if_neg (not_lt.mpr hmin), Bool.not_true, Bool.false_eq_true, if_false, hproducer,
    hconsumer]

/-- What a successful open returns. -/
theorem openSession_ok {lib : SafeString} (hlib : lib.Lawful) {heap : Bool} {size : ℕ}
    {hdr : Bool} {m : Shared} {h : Handles} {s : Session} (h32 : size < 2 ^ 32)
    (hempty : OpensEmpty size hdr m) (hopen : openSession lib heap size hdr m = .ok (h, s)) :
    ∃ N ring, WellSized N ∧ h = ⟨lib, ⟨.producer, N, N * 2 / 10⟩, ⟨.consumer, N, N * 2 / 10⟩⟩ ∧
      s = ⟨⟨⟨traceMagicBuffer, traceVer, 0, 0, 0, 0, hdr.toNat⟩, 0, ring, false, false, false⟩, [],
        [], none⟩ := by
  have hmin : octfTraceMinBufferSize ≤ size := by
    by_contra hlt
    simp [openSession, octfTraceOpen, not_le.mp hlt] at hopen
  have hheap : heap = true := by
    cases heap with
    | true => rfl
    | false => simp [openSession, octfTraceOpen, not_lt.mpr hmin] at hopen
  obtain ⟨N, ring, hN, heq⟩ := openSession_eq hlib hmin h32 hempty
  rw [hheap, heq] at hopen
  obtain ⟨hh, hs⟩ := Prod.mk.inj (Except.ok.inj hopen)
  exact ⟨N, ring, hN, hh.symm, hs.symm⟩

/-- An opened session satisfies the invariant with nothing accepted. -/
theorem openSession_inv {lib : SafeString} (hlib : lib.Lawful) {heap : Bool} {size : ℕ}
    {hdr : Bool} {m : Shared} {h : Handles} {s : Session} (h32 : size < 2 ^ 32)
    (hempty : OpensEmpty size hdr m) (hopen : openSession lib heap size hdr m = .ok (h, s)) :
    h.Opened h.producer.ringSize ∧ Inv h.producer.ringSize s 0 [] [] := by
  obtain ⟨N, ring, hN, rfl, rfl⟩ := openSession_ok hlib h32 hempty hopen
  refine ⟨⟨hlib, hN, rfl, rfl, rfl, rfl⟩, rfl, ⟨⟨Nat.dvd_zero _, Nat.dvd_zero _, le_rfl,
    by simpa using hN.pos⟩, (Nat.zero_mod N).symm, (Nat.zero_mod N).symm⟩, rfl, ?_, ?_, ?_,
    ⟨rfl, rfl, fun _ => rfl⟩, rfl, rfl, rfl, rfl⟩ <;> simp

/-- A library as the trace relies on; a copy that does not fit clears the destination. -/
def SafeString.plain : SafeString where
  memcpyS dest src :=
    if rsizeMaxMem < dest.length then dest
    else if src.length ≤ dest.length then src ++ dest.drop src.length
    else List.replicate dest.length 0
  memsetS size x := if rsizeMaxMem < size then x else 0

theorem SafeString.plain_lawful : SafeString.plain.Lawful where
  length_memcpyS := by
    intro dest src
    unfold plain
    simp only
    split_ifs with hbound h
    · rfl
    · simp; omega
    · simp
  memcpyS_eq dest src _ hfit hbound := (if_neg (not_lt.mpr hbound)).trans (if_pos hfit)
  memcpyS_refused _ _ hbound := if_pos hbound
  memsetS_eq _ hbound := if_neg (not_lt.mpr hbound)
  memsetS_refused _ hbound := if_pos hbound

/-- The smallest pool, with both headers in it. -/
def smallHandles : Handles :=
  ⟨.plain, ⟨.producer, 28608, 5721⟩, ⟨.consumer, 28608, 5721⟩⟩

def smallSession : Session :=
  ⟨⟨⟨traceMagicBuffer, traceVer, 0, 0, 0, 0, 0⟩, 0, 0, false, false, false⟩, [], [], none⟩

theorem openSession_small : openSession .plain true octfTraceMinBufferSize false
    ⟨0, 0, 0, false, false, false⟩ = .ok (smallHandles, smallSession) := rfl

/-- The invariant holds after every run with small events. -/
theorem run_inv {h : Handles} {N : ℕ} (ho : h.Opened N) {s : Session} {ops : List Op}
    (hops : ∀ op ∈ ops, op.SmallEvent) (hs : ∃ R done pending, Inv N s R done pending) :
    ∃ R done pending, Inv N (run (Session.step h) ops s) R done pending := by
  refine run_invariant (C := fun (op : Op) _ => op.SmallEvent)
    (P := fun s => ∃ R done pending, Inv N s R done pending) ?_ (meets_of_forall hops s) hs
  rintro op s hop ⟨R, done, pending, hi⟩
  exact hi.step ho hop

/-- With no buffer held, the next event is the first pending one. -/
theorem Inv.next_eq {N R : ℕ} {s : Session} {done pending : List Event}
    (hi : Inv N s R done pending) (hheld : s.held = none) : s.next = pending.head? := by
  rw [Session.next, (hi.given_of_not_held hheld).length_eq, hi.split,
    List.getElem?_append_right le_rfl, Nat.sub_self, List.head?_eq_getElem?]

/-- A push that is accepted has found room. -/
theorem Inv.copies_push {h : Handles} {N R : ℕ} {s : Session} {done pending : List Event}
    (ho : h.Opened N) (hi : Inv N s R done pending) {event : List UInt8}
    (hsize : event.length ≤ 2 ^ 32 - 16) (hfit : Accepts N R (Inv.W N R pending) event.length) :
    (Op.push event).Copies h s := by
  have hfind := ho.findSpace_eq hi.pointers.toPositions event.length s.shared
  unfold Accepts at hfit
  rw [alignedSize_of_le hsize, if_pos hfit] at hfind
  change (findSpace h.producer event.length s.shared.chdr.rdPtr s.shared.phdr.wrPtr
    s.shared).1.isSome = true
  rw [hi.pointers.rdPtr, hi.pointers.wrPtr, hfind]
  rfl

/-- A bound on every operation is one on what it copies. -/
theorem meets_copiesWithin {h : Handles} {ops : List Op} (hops : ∀ op ∈ ops, op.WithinBound)
    (s : Session) : Meets (Session.step h) (CopiesWithin h) ops s := by
  induction ops generalizing s with
  | nil => trivial
  | cons op ops ih =>
    exact ⟨fun _ => hops op List.mem_cons_self,
      ih (fun o ho => hops o (List.mem_cons_of_mem _ ho)) _⟩

/-- An operation whose copy is within the bound of the library is not refused it. -/
theorem Inv.step_copied {h : Handles} {N R : ℕ} {s : Session} {done pending : List Event}
    (ho : h.Opened N) (hi : Inv N s R done pending) {op : Op} (hop : op.SmallEvent)
    (hbound : CopiesWithin h op s) (hs : s.shared.refused = false) :
    (Session.step h op s).shared.refused = false := by
  cases op with
  | push event =>
    rw [Session.step, hi.push_eq ho hop]
    split_ifs with hfit
    · have hle : event.length ≤ rsizeMaxMem := hbound (hi.copies_push ho hop hfit)
      simpa [Shared.noteCopy, Shared.allocated, afterPush, hs] using hle
    · exact hs
  | getWrBuffer size =>
    simp only [Session.step, Session.getWrBuffer]
    rw [hi.octfTraceGetWrBuffer_eq ho hop]
    split_ifs <;> exact hs
  | fill i off bytes =>
    simp only [Session.step, Session.fill]
    cases s.accepted[i]? with
    | none => exact hs
    | some e =>
      dsimp only
      split_ifs <;> exact hs
  | commitWrBuffer i =>
    simp only [Session.step, Session.commitWrBuffer]
    cases he : s.accepted[i]? with
    | none => exact hs
    | some e =>
      dsimp only
      split_ifs with hc
      · obtain ⟨j, -, hj⟩ := hi.uncommitted_index he hc
        rw [hi.octfTraceCommitWrBuffer_eq ho (List.mem_of_getElem? hj)]
        exact hs
      · exact hs
  | pop buffer =>
    rw [Session.step]
    rcases hi.pop_eq ho buffer with ⟨hheld, e, es, rfl, hc, hfit, heq⟩ | ⟨heq, -⟩
    · have hnext : s.next = some e := by rw [hi.next_eq hheld, List.head?_cons]
      have hle : buffer.length ≤ rsizeMaxMem := hbound ⟨hheld, e, hnext, hc, hfit⟩
      rw [heq]
      simpa [Shared.noteCopy, Inv.consumed, Shared.setRdPtr, Shared.setRdLock, hs] using hle
    · rw [heq]
      exact hs
  | getRdBuffer =>
    rw [Session.step]
    rcases hi.getRdBuffer_eq ho with ⟨-, e, es, -, -, heq⟩ | ⟨heq, -⟩ <;>
      · rw [heq]
        exact hs
  | releaseRdBuffer =>
    rw [Session.step]
    cases hheld : s.held with
    | none =>
      unfold Session.releaseRdBuffer
      simpa only [hheld] using hs
    | some hdr =>
      obtain ⟨e, es, -, -, -, heq⟩ := hi.releaseRdBuffer_eq ho hheld
      rw [heq]
      exact hs

/-- Nor is any in a run within the bound. -/
theorem run_copied {h : Handles} {N : ℕ} (ho : h.Opened N) {s : Session} {ops : List Op}
    (hops : ∀ op ∈ ops, op.SmallEvent) (hbound : Meets (Session.step h) (CopiesWithin h) ops s)
    (hs : ∃ R done pending, Inv N s R done pending) (hcopied : s.shared.refused = false) :
    (run (Session.step h) ops s).shared.refused = false := by
  refine (run_invariant (C := fun (op : Op) s => op.SmallEvent ∧ CopiesWithin h op s)
    (P := fun s => (∃ R done pending, Inv N s R done pending) ∧ s.shared.refused = false) ?_
    (hbound.and_forall hops) ⟨hs, hcopied⟩).2
  rintro op s ⟨hop, hbound⟩ ⟨⟨R, done, pending, hi⟩, hs⟩
  exact ⟨hi.step ho hop, hi.step_copied ho hop hbound hs⟩

/-! ### Events that do not fit the 32-bit variable -/

section Oversized

variable {h : Handles} {N R : ℕ} {s : Session} {done pending : List Event}

/-- The space between the pointers holds no header exactly when the positions leave none. -/
theorem Inv.headerSpace_iff (ho : h.Opened N) (hi : Inv N s R done pending) :
    continuousSpace N s.shared.chdr.rdPtr s.shared.phdr.wrPtr < traceEventHdrSize ↔
      R + N ≤ Inv.W N R pending + 16 := by
  have hsize := ho.producerSize
  have hsized := ho.sized
  subst hsize
  rw [hi.pointers.rdPtr, hi.pointers.wrPtr]
  exact Trace.headerSpace_iff hsized hi.pointers.toPositions

/-- Without room for a header, an event of any size is refused. -/
theorem Inv.allocateEvent_full (ho : h.Opened N) (hi : Inv N s R done pending)
    (hfull : continuousSpace N s.shared.chdr.rdPtr s.shared.phdr.wrPtr < traceEventHdrSize)
    (size : ℕ) : allocateEvent h.producer size s.shared = (none, s.shared) := by
  have ht : WellSized h.producer.ringSize := by rw [ho.producerSize]; exact ho.sized
  have hp : Pointers h.producer.ringSize s.shared R (Inv.W N R pending) := by
    rw [ho.producerSize]
    exact hi.pointers
  have hroom := (hi.headerSpace_iff ho).mp hfull
  have hnext := le_nextPos (N := N) (u := 16) (Inv.W N R pending) (alignedSize size)
  rw [Trace.allocateEvent_eq ht hp hi.wrLock, ho.producerSize, if_neg (by omega)]

/-- With room for a header, an oversized event is placed as if it were empty. -/
theorem Inv.allocateEvent_oversized (ho : h.Opened N) (hi : Inv N s R done pending)
    (hroom : ¬ continuousSpace N s.shared.chdr.rdPtr s.shared.phdr.wrPtr < traceEventHdrSize)
    {size : ℕ} (hsize : 2 ^ 32 - 16 < size) (h32 : size < 2 ^ 32) :
    allocateEvent h.producer size s.shared =
      (some (Inv.W N R pending % N), s.shared.allocated N (Inv.W N R pending) size) := by
  have ht : WellSized h.producer.ringSize := by rw [ho.producerSize]; exact ho.sized
  have hp : Pointers h.producer.ringSize s.shared R (Inv.W N R pending) := by
    rw [ho.producerSize]
    exact hi.pointers
  have hlt : Inv.W N R pending + 16 < R + N :=
    not_le.mp (mt (hi.headerSpace_iff ho).mpr hroom)
  have hmod := Nat.mod_lt (Inv.W N R pending + 16) ho.sized.pos
  have hnext : nextPos N 16 (Inv.W N R pending) (alignedSize size) =
      Inv.W N R pending + 16 := by
    rw [alignedSize_of_gt hsize h32, nextPos, payloadPos, if_pos (by omega)]
  rw [Trace.allocateEvent_eq ht hp hi.wrLock, ho.producerSize, hnext, if_pos hlt]

/-- No oversized event passes the integrity check. -/
theorem integrityCheck_of_gt (ho : h.Opened N) {p size : ℕ} (hp : p < N)
    (hsize : 2 ^ 32 - 16 < size) (h32 : size < 2 ^ 32) :
    integrityCheck h.producer p size = false := by
  have hN16 := add_le_of_dvd_of_lt ho.sized.dvd (by decide : 16 ∣ 2 ^ 32) ho.sized.lt
  unfold integrityCheck
  rw [ho.producerSize, if_neg (by omega), Nat.mod_eq_of_lt (by omega), if_pos (by omega)]

/-- The integrity check that follows such an allocation fails. -/
theorem integrityCheck_oversized (ho : h.Opened N) (m : Shared) (v : ℕ) {size : ℕ}
    (hsize : 2 ^ 32 - 16 < size) (h32 : size < 2 ^ 32) :
    integrityCheck h.producer (readHdr (m.allocated N v size).ring (v % N)).dataPtr
      (readHdr (m.allocated N v size).ring (v % N)).dataSize = false := by
  have hlt := Nat.mod_lt (payloadPos N 16 v (alignedSize size)) ho.sized.pos
  have hN := ho.sized.lt
  have hread : readHdr (m.allocated N v size).ring (v % N) =
      ⟨false, size, payloadPos N 16 v (alignedSize size) % N⟩ :=
    readHdr_writeHdr m.ring (v % N) h32 (by simp only; omega)
  rw [hread]
  exact integrityCheck_of_gt ho hlt hsize h32

/-- A push of an oversized event is refused as lost only where not even its header fits;
elsewhere it invalidates the trace. -/
theorem Inv.octfTracePush_oversized (ho : h.Opened N) (hi : Inv N s R done pending)
    {event : List UInt8} (hsize : 2 ^ 32 - 16 < event.length) (h32 : event.length < 2 ^ 32) :
    if continuousSpace N s.shared.chdr.rdPtr s.shared.phdr.wrPtr < traceEventHdrSize then
      octfTracePush h.lib h.producer event s.shared = (.error .ENOSPC, s.shared.addLost 1)
    else
      (octfTracePush h.lib h.producer event s.shared).1 = .error .EINVAL ∧
        isTraceValid (octfTracePush h.lib h.producer event s.shared).2 = false := by
  split_ifs with hfull
  · unfold octfTracePush
    simp [hi.valid, ho.producerMode, hi.allocateEvent_full ho hfull]
  · have hcheck := integrityCheck_oversized ho s.shared (Inv.W N R pending) hsize h32
    unfold octfTracePush
    simp only [hi.valid, ho.producerMode, hi.allocateEvent_oversized ho hfull hsize h32, hcheck]
    exact ⟨by simp, by simp [isTraceValid, Shared.envBug, Shared.setMagic, traceMagicBuffer,
      traceMagic]⟩

theorem Inv.octfTraceGetWrBuffer_oversized (ho : h.Opened N) (hi : Inv N s R done pending)
    {size : ℕ} (hsize : 2 ^ 32 - 16 < size) (h32 : size < 2 ^ 32) :
    if continuousSpace N s.shared.chdr.rdPtr s.shared.phdr.wrPtr < traceEventHdrSize then
      octfTraceGetWrBuffer h.producer size s.shared = (.error .ENOSPC, s.shared.addLost 1)
    else
      (octfTraceGetWrBuffer h.producer size s.shared).1 = .error .EINVAL ∧
        isTraceValid (octfTraceGetWrBuffer h.producer size s.shared).2 = false := by
  split_ifs with hfull
  · unfold octfTraceGetWrBuffer
    simp [hi.valid, ho.producerMode, hi.allocateEvent_full ho hfull]
  · have hcheck := integrityCheck_oversized ho s.shared (Inv.W N R pending) hsize h32
    unfold octfTraceGetWrBuffer
    simp only [hi.valid, ho.producerMode, hi.allocateEvent_oversized ho hfull hsize h32, hcheck]
    exact ⟨by simp, by simp [isTraceValid, Shared.envBug, Shared.setMagic, traceMagicBuffer,
      traceMagic]⟩

end Oversized

/-- On an invalid trace no operation does anything that would make it valid again. -/
theorem step_invalid (h : Handles) {s : Session} (hs : isTraceValid s.shared = false) (op : Op) :
    isTraceValid (Session.step h op s).shared = false := by
  cases op with
  | push event => simp [Session.step, Session.push, octfTracePush, hs]
  | getWrBuffer size => simp [Session.step, Session.getWrBuffer, octfTraceGetWrBuffer, hs]
  | fill i off bytes =>
    simp only [Session.step, Session.fill]
    cases s.accepted[i]? with
    | none => exact hs
    | some e =>
      simp only
      split_ifs
      · exact hs
      · exact hs
  | commitWrBuffer i =>
    simp only [Session.step, Session.commitWrBuffer]
    cases s.accepted[i]? with
    | none => exact hs
    | some e =>
      simp only
      split_ifs
      · simp [octfTraceCommitWrBuffer, hs]
      · exact hs
  | pop buffer => simp [Session.step, Session.pop, octfTracePop, hs]
  | getRdBuffer => simp [Session.step, Session.getRdBuffer, octfTraceGetRdBuffer, hs]
  | releaseRdBuffer =>
    simp only [Session.step, Session.releaseRdBuffer]
    cases s.held with
    | none => exact hs
    | some hdr => simp [octfTraceReleaseRdBuffer, hs]

/-- One operation with any 32-bit sizes keeps the invariant or invalidates the trace. -/
theorem Inv.step_valid {h : Handles} {N R : ℕ} {s : Session} {done pending : List Event}
    (ho : h.Opened N) (hi : Inv N s R done pending) {op : Op} (hop : op.Fits) :
    isTraceValid (Session.step h op s).shared = true →
      ∃ R' done' pending', Inv N (Session.step h op s) R' done' pending' := by
  intro hvalid
  by_cases hsmall : op.SmallEvent
  · exact hi.step ho hsmall
  · cases op with
    | push event =>
      have hover := hi.octfTracePush_oversized ho (not_le.mp hsmall) hop
      simp only [Session.step, Session.push] at hvalid ⊢
      split_ifs at hover with hfull
      · rw [hover]
        exact ⟨R, done, pending, hi.addLost 1⟩
      · generalize octfTracePush h.lib h.producer event s.shared = r at hvalid hover
        obtain ⟨r, m⟩ := r
        simp only at hover
        rw [hover.1] at hvalid
        simp [hover.2] at hvalid
    | getWrBuffer size =>
      have hover := hi.octfTraceGetWrBuffer_oversized ho (not_le.mp hsmall) hop
      simp only [Session.step, Session.getWrBuffer] at hvalid ⊢
      split_ifs at hover with hfull
      · rw [hover]
        exact ⟨R, done, pending, hi.addLost 1⟩
      · generalize octfTraceGetWrBuffer h.producer size s.shared = r at hvalid hover
        obtain ⟨r, m⟩ := r
        simp only at hover
        rw [hover.1] at hvalid
        simp [hover.2] at hvalid
    | pop buffer => exact absurd hop hsmall
    | _ => exact absurd trivial hsmall

/-- After any run of operations, a trace that is still valid satisfies the invariant. -/
theorem run_valid_inv {h : Handles} {N : ℕ} (ho : h.Opened N) {s : Session} {ops : List Op}
    (hops : ∀ op ∈ ops, op.Fits) (hs : ∃ R done pending, Inv N s R done pending)
    (hvalid : isTraceValid (run (Session.step h) ops s).shared = true) :
    ∃ R done pending, Inv N (run (Session.step h) ops s) R done pending := by
  have hrun : isTraceValid (run (Session.step h) ops s).shared = true →
      ∃ R done pending, Inv N (run (Session.step h) ops s) R done pending := by
    refine run_invariant (C := fun (op : Op) _ => op.Fits)
      (P := fun s => isTraceValid s.shared = true → ∃ R done pending, Inv N s R done pending)
      ?_ (meets_of_forall hops s) fun _ => hs
    intro op s hop ih hv
    cases hs : isTraceValid s.shared with
    | false => rw [step_invalid h hs op] at hv; exact absurd hv (by decide)
    | true =>
      obtain ⟨R, done, pending, hi⟩ := ih hs
      exact hi.step_valid ho hop hv
  exact hrun hvalid

end Octf.Trace
