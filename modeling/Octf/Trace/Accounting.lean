import Octf.Trace.Runs

/-! Where the pending events lie and what they take: aligned pointers, disjoint cells
inside the ring, and a free-space report that counts headers, payloads and skipped tails. -/
namespace Octf.Trace
open Foundation Foundation.RecordRing

/-- The accepted events that still occupy the ring: all but those the consumer was given,
and the one whose read buffer is still held. -/
def Session.pending (s : Session) : List Event :=
  s.accepted.drop (s.given.length - if s.held.isSome then 1 else 0)

/-- The end of the lap a payload skips when it is placed at the start of the ring instead
of behind its header. -/
def Place.skippedTail (N : ℕ) (e : Place) : ℕ :=
  if e.ptr = (e.hdr + 16) % N then 0 else N - (e.hdr + 16)

/-- The bytes an event takes: header, aligned payload and skipped tail. -/
def Place.taken (N : ℕ) (e : Place) : ℕ := 16 + traceAlign e.size + e.skippedTail N

/-- The layout of a ring of `N` bytes and the account of its free space. -/
structure LaidOut (h : Handles) (N : ℕ) (s : Session) : Prop where
  rdPtr : traceAlignment ∣ s.shared.chdr.rdPtr ∧ s.shared.chdr.rdPtr < N
  wrPtr : traceAlignment ∣ s.shared.phdr.wrPtr ∧ s.shared.phdr.wrPtr < N
  /-- no assertion has fired, no access has left the ring -/
  bug : s.shared.bug = false
  outside : s.shared.outside = false
  inside : ∀ e ∈ s.pending, e.hdr + traceEventHdrSize ≤ N ∧ e.ptr + traceAlign e.size ≤ N
  disjoint : s.pending.Pairwise fun e f => e.toPlace.Disjoint f.toPlace
  /-- both handles report what the pending events leave, less one byte -/
  freeSpace : ∃ free, free + (s.pending.map fun e => e.toPlace.taken N).sum = N - 1 ∧
    octfTraceGetFreeSpace h.producer s.shared = .ok free ∧
      octfTraceGetFreeSpace h.consumer s.shared = .ok free
  /-- which is all but one byte again once everything was consumed -/
  emptied : s.pending = [] → octfTraceGetFreeSpace h.producer s.shared = .ok (N - 1) ∧
    octfTraceGetFreeSpace h.consumer s.shared = .ok (N - 1)

/-- A record takes the way from its position to the next one. -/
theorem taken_ofPos {N v size : ℕ} (hN : WellSized N) (hv : 16 ∣ v)
    (hsize : traceAlign size ≤ N) :
    v + (Place.ofPos N v size).taken N = nextPos N 16 v (traceAlign size) := by
  have hpos := hN.pos
  have hhead := head_le hN.dvd hpos hv
  have hq := Nat.mod_lt (v + 16) hpos
  have hmod : (v % N + 16) % N = (v + 16) % N := Nat.mod_add_mod v N 16
  have hpay := payload_le (N := N) (u := 16) (v := v) hpos hsize
  unfold Place.taken Place.skippedTail
  simp only [Place.ofPos, hmod, nextPos]
  unfold payloadPos at hpay ⊢
  split_ifs with hfit heq heq
  · omega
  · exact absurd rfl heq
  · -- a payload on the next lap starts at zero, and a full lap has no tail to skip
    rw [if_neg hfit] at hpay
    have hzero : (v + 16 + (N - (v + 16) % N)) % N = 0 := by
      rw [← Nat.mod_add_mod, Nat.add_sub_cancel' hq.le, Nat.mod_self]
    omega
  · rcases hhead.lt_or_eq with hlt | hfull
    · rw [← hmod, Nat.mod_eq_of_lt hlt]
      omega
    · rw [← hmod, hfull, Nat.mod_self, Nat.zero_add] at hfit
      exact absurd hsize hfit

/-- Consecutive records take the way from the first position to the end. -/
theorem taken_places {N v : ℕ} {sizes : List ℕ} (hN : WellSized N) (hv : 16 ∣ v)
    (hlap : endOf N v sizes ≤ v + N) :
    v + ((places N v sizes).map (Place.taken N)).sum = endOf N v sizes := by
  induction sizes generalizing v with
  | nil => rfl
  | cons s sizes ih =>
    rw [endOf_cons] at hlap ⊢
    have hnext := le_nextPos (N := N) (u := 16) v (traceAlign s)
    have hend := le_endOf N (nextPos N 16 v (traceAlign s)) sizes
    have hrec := taken_ofPos hN hv (show traceAlign s ≤ N by omega)
    have hrest := ih (dvd_nextPos hN.dvd hv (dvd_traceAlign s)) (by omega)
    simp only [places, List.map_cons, List.sum_cons]
    omega

/-- The free space between the cells of two positions. -/
theorem getFreeSpace_eq {t : OctfTrace} {R W : ℕ} (ht : WellSized t.ringSize) (hle : R ≤ W)
    (hlt : W < R + t.ringSize) :
    getFreeSpace t (R % t.ringSize) (W % t.ringSize) = t.ringSize - 1 - (W - R) := by
  have hr := Nat.mod_lt R ht.pos
  have hw := Nat.mod_lt W ht.pos
  have hN := ht.lt
  unfold getFreeSpace
  rcases gap_cases hle hlt with ⟨hcell, hgap⟩ | ⟨hcell, hgap⟩
  · simp only [if_pos hcell]
    rw [sub64_of_le (a := t.ringSize) (by omega) (by omega), sub64_of_le (by omega) (by omega)]
    omega
  · simp only [if_neg (not_le.mpr hcell)]
    rw [sub64_of_le (by omega) (by omega)]
    omega

namespace Inv

variable {h : Handles} {N R : ℕ} {s : Session} {done pending : List Event}

/-- The pending events of the invariant are those of the session. -/
theorem pending_eq (hi : Inv N s R done pending) : s.pending = pending := by
  have hread := hi.reading
  unfold Reading at hread
  unfold Session.pending
  cases hheld : s.held with
  | none =>
    simp only [hheld] at hread
    rw [hi.split, hread.2.length_eq]
    simp
  | some hdr =>
    simp only [hheld] at hread
    obtain ⟨_, e, es, rfl, _, _, hgiven⟩ := hread
    rw [hi.split, hgiven.length_eq]
    simp

theorem octfTraceGetFreeSpace_eq (hN : WellSized N) (hi : Inv N s R done pending)
    {t : OctfTrace} (ht : t.ringSize = N) :
    octfTraceGetFreeSpace t s.shared = .ok (N - 1 - (W N R pending - R)) := by
  subst ht
  unfold octfTraceGetFreeSpace
  rw [if_pos hi.valid, hi.pointers.rdPtr, hi.pointers.wrPtr]
  rw [getFreeSpace_eq hN hi.pointers.le hi.pointers.lt]

theorem laidOut (ho : h.Opened N) (hi : Inv N s R done pending) : LaidOut h N s where
  rdPtr := by
    rw [hi.pointers.rdPtr]
    exact ⟨dvd_mod ho.sized.dvd hi.pointers.dvdR, Nat.mod_lt _ ho.sized.pos⟩
  wrPtr := by
    rw [hi.pointers.wrPtr]
    exact ⟨dvd_mod ho.sized.dvd hi.pointers.dvdW, Nat.mod_lt _ ho.sized.pos⟩
  bug := hi.bug
  outside := hi.outside
  inside := by
    rw [hi.pending_eq]
    intro e he
    obtain ⟨hhdr, hptr, _⟩ := hi.inside ho.sized he
    exact ⟨hhdr, hptr⟩
  disjoint := by
    rw [hi.pending_eq]
    exact hi.pairwise ho.sized
  freeSpace := by
    have hlt : W N R pending < R + N := hi.pointers.lt
    have hle : R ≤ W N R pending := hi.pointers.le
    have hsum := taken_places ho.sized hi.pointers.dvdR hlt.le
    rw [← hi.laid, List.map_map] at hsum
    rw [hi.pending_eq]
    refine ⟨N - 1 - (W N R pending - R), ?_,
      hi.octfTraceGetFreeSpace_eq ho.sized ho.producerSize,
      hi.octfTraceGetFreeSpace_eq ho.sized ho.consumerSize⟩
    change R + (pending.map fun e => e.toPlace.taken N).sum = W N R pending at hsum
    omega
  emptied := by
    rw [hi.pending_eq]
    rintro rfl
    have hW : W N R ([] : List Event) - R = 0 := Nat.sub_self R
    rw [hi.octfTraceGetFreeSpace_eq ho.sized ho.producerSize,
      hi.octfTraceGetFreeSpace_eq ho.sized ho.consumerSize, hW, Nat.sub_zero]
    exact ⟨rfl, rfl⟩

end Inv

/-- The layout holds in every state reached from an open that leaves empty headers. -/
theorem session_laidOut {lib : SafeString} (hlib : lib.Lawful) {heap : Bool} {mempoolSize : ℕ}
    {hdr : Bool} {m : Shared} {h : Handles} {s : Session} (h32 : mempoolSize < 2 ^ 32)
    (hempty : OpensEmpty mempoolSize hdr m)
    (hopen : openSession lib heap mempoolSize hdr m = .ok (h, s)) {ops : List Op}
    (hops : ∀ op ∈ ops, op.EventInRange) :
    LaidOut h h.producer.ringSize (run (Session.step h) ops s) := by
  obtain ⟨ho, hi⟩ := openSession_inv hlib h32 hempty hopen
  obtain ⟨R, done, pending, hrun⟩ :=
    run_inv ho (fun op hop => (hops op hop).smallEvent) ⟨0, [], [], hi⟩
  exact hrun.laidOut ho

theorem session_laidOut_small : LaidOut smallHandles 28608 (run (Session.step smallHandles)
    [.push [1, 2, 3], .getWrBuffer 20000, .pop [0, 0, 0, 0], .commitWrBuffer 1, .getRdBuffer]
      smallSession) :=
  session_laidOut SafeString.plain_lawful (by decide) (.inl (by decide)) openSession_small
    (by simp [Op.EventInRange])

/-- A pool of 512 MiB, with what the write pointer and its lock find in it. -/
def largePool : ℕ := 512 * 2 ^ 20

def dirtyPool (wrPtr wrLock : ℕ) : Shared :=
  ⟨⟨0, 0, 0, wrPtr, wrLock, 0, 0⟩, 0, 0, false, false, false⟩

def largeHandles : Handles :=
  ⟨.plain, ⟨.producer, 536866752, 107373350⟩, ⟨.consumer, 536866752, 107373350⟩⟩

def dirtySession (wrPtr wrLock : ℕ) : Session :=
  ⟨{ dirtyPool wrPtr wrLock with
    phdr := ⟨traceMagicBuffer, traceVer, 0, wrPtr, wrLock, 0, 0⟩ }, [], [], none⟩

theorem initRing_large : initRing largePool false = .ok 536866752 := by decide

/-- The library does not clear it. -/
theorem openSession_dirty (wrPtr wrLock : ℕ) :
    openSession .plain true largePool false (dirtyPool wrPtr wrLock) =
      .ok (largeHandles, dirtySession wrPtr wrLock) := by
  have hmin : ¬ largePool < octfTraceMinBufferSize := by decide
  have hbound : rsizeMaxMem < largePool := by decide
  unfold openSession octfTraceOpen
  simp only [if_neg hmin, initProducer, initConsumer, initRing_large, SafeString.plain,
    if_pos hbound]
  rfl

/-- A write pointer that was left in the pool need not be aligned. -/
theorem not_laidOut_dirty :
    openSession .plain true largePool false (dirtyPool 1 0) = .ok (largeHandles, dirtySession 1 0) ∧
      ¬ LaidOut largeHandles largeHandles.producer.ringSize (dirtySession 1 0) :=
  ⟨openSession_dirty 1 0, fun hlaid => absurd hlaid.wrPtr.1 (by decide)⟩

end Octf.Trace
