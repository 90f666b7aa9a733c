import Octf.Trace.RingBuffer
import Octf.Foundation.RecordRing

/-! What `_allocate_event` does to a ring whose two pointers are the cells of unwrapped
positions: it accepts an event exactly when the record ends less than a lap after the
read position, and it writes nothing but the header and the write pointer. -/
namespace Octf.Trace
open Foundation Foundation.RecordRing

/-- The ring sizes that `_init_ring` computes: whole headers, below 4 GiB. -/
structure WellSized (N : ℕ) : Prop where
  dvd : 16 ∣ N
  pos : 0 < N
  lt : N < 2 ^ 32

theorem traceAlign_eq (s : ℕ) : traceAlign s = (s + 15) / 16 * 16 := rfl

theorem dvd_traceAlign (s : ℕ) : 16 ∣ traceAlign s := Nat.dvd_mul_left 16 _

theorem le_traceAlign (s : ℕ) : s ≤ traceAlign s := by rw [traceAlign_eq]; omega

/-- `_size`: the aligned size in the 32-bit variable the source keeps it in. -/
def alignedSize (s : ℕ) : ℕ := traceAlign s % 2 ^ 32

theorem alignedSize_lt (s : ℕ) : alignedSize s < 2 ^ 32 := Nat.mod_lt _ (by decide)

theorem alignedSize_of_le {s : ℕ} (h : s ≤ 2 ^ 32 - 16) : alignedSize s = traceAlign s := by
  rw [alignedSize, traceAlign_eq]
  omega

/-- Exactly the sizes above `2 ^ 32 - 16` lose their value. -/
theorem alignedSize_of_gt {s : ℕ} (h : 2 ^ 32 - 16 < s) (h' : s < 2 ^ 32) :
    alignedSize s = 0 := by
  rw [alignedSize, traceAlign_eq]
  omega

/-- A read and a write position, less than a lap apart. -/
structure Positions (N R W : ℕ) : Prop where
  dvdR : 16 ∣ R
  dvdW : 16 ∣ W
  le : R ≤ W
  lt : W < R + N

/-- The two pointers of the ring as cells of such positions. -/
structure Pointers (N : ℕ) (m : Shared) (R W : ℕ) : Prop extends Positions N R W where
  rdPtr : m.chdr.rdPtr = R % N
  wrPtr : m.phdr.wrPtr = W % N

/-- Continuous space between valid pointers. -/
def continuousSpace (N rdp wrp : ℕ) : ℕ :=
  if rdp ≤ wrp then if rdp = 0 then N - wrp - 1 else N - wrp else rdp - wrp - 1

theorem continuousSpace_of_le {N rdp wrp : ℕ} (h : rdp ≤ wrp) :
    continuousSpace N rdp wrp = if rdp = 0 then N - wrp - 1 else N - wrp := if_pos h

theorem continuousSpace_of_lt {N rdp wrp : ℕ} (h : wrp < rdp) :
    continuousSpace N rdp wrp = rdp - wrp - 1 := if_neg (not_le.mpr h)

theorem getContinuousSpace_eq {t : OctfTrace} {rdp wrp : ℕ} (m : Shared)
    (hr : rdp < t.ringSize) (hw : wrp < t.ringSize) :
    getContinuousSpace t rdp wrp m = (continuousSpace t.ringSize rdp wrp, m) := by
  unfold getContinuousSpace continuousSpace
  rw [if_neg (by omega), if_neg (by omega)]
  split_ifs <;> rfl

theorem movePtr_eq {t : OctfTrace} (ht : WellSized t.ringSize) {p k : ℕ}
    (hp : p ≤ t.ringSize) (hk : k < 2 ^ 33) : movePtr t p k = (p + k) % t.ringSize := by
  have hlt := ht.lt
  have hmod : (p + k) % 2 ^ 64 = p + k := Nat.mod_eq_of_lt (by omega)
  unfold movePtr
  simp only [hmod]
  split_ifs with h
  · rfl
  · exact (Nat.mod_eq_of_lt (by omega)).symm

/-- Moving the cell of a position moves the position. -/
theorem movePtr_mod {t : OctfTrace} (ht : WellSized t.ringSize) (v : ℕ) {k : ℕ}
    (hk : k < 2 ^ 33) : movePtr t (v % t.ringSize) k = (v + k) % t.ringSize := by
  rw [movePtr_eq ht (Nat.mod_lt v ht.pos).le hk, Nat.mod_add_mod]

/-- The shared memory after an accepted allocation of the record at `W`. -/
def Shared.allocated (m : Shared) (N W size : ℕ) : Shared :=
  { m with
    ring := writeHdr m.ring (W % N) ⟨false, size, payloadPos N 16 W (alignedSize size) % N⟩
    phdr := { m.phdr with wrPtr := nextPos N 16 W (alignedSize size) % N } }

theorem touch_of_le {t : OctfTrace} {m : Shared} {p n : ℕ} (h : p + n ≤ t.ringSize) :
    m.touch t p n = m := by
  have hn : ¬ t.ringSize < p + n := by omega
  simp [Shared.touch, hn]

section Accept

variable {t : OctfTrace} {R W : ℕ}

/-- Enough room for a header means room for it behind the write position. -/
theorem headerSpace_iff (ht : WellSized t.ringSize) (hp : Positions t.ringSize R W) :
    continuousSpace t.ringSize (R % t.ringSize) (W % t.ringSize) < 16 ↔
      R + t.ringSize ≤ W + 16 := by
  have hgap := gap_cases hp.le hp.lt
  have hr := Nat.mod_lt R ht.pos
  have hw := Nat.mod_lt W ht.pos
  have hdr : 16 ∣ R % t.ringSize := dvd_mod ht.dvd hp.dvdR
  have hdw : 16 ∣ W % t.ringSize := dvd_mod ht.dvd hp.dvdW
  have hdN := ht.dvd
  rcases hgap with ⟨hle, heq⟩ | ⟨hlt, heq⟩
  · rw [continuousSpace_of_le hle]
    split_ifs <;> omega
  · rw [continuousSpace_of_lt hlt]
    omega

/-- The payload fits without a wrap: then it follows the header. -/
theorem payloadSpace_fits (ht : WellSized t.ringSize) (hp : Positions t.ringSize R W) {s : ℕ}
    (hhead : W + 16 < R + t.ringSize)
    (hs : s ≤ continuousSpace t.ringSize (R % t.ringSize) ((W + 16) % t.ringSize)) :
    payloadPos t.ringSize 16 W s = W + 16 ∧ W + 16 + s < R + t.ringSize := by
  have hgap := gap_cases (by have := hp.le; omega) hhead
  have hr := Nat.mod_lt R ht.pos
  have hw := Nat.mod_lt (W + 16) ht.pos
  have hle' := hp.le
  unfold payloadPos
  rcases hgap with ⟨hle, heq⟩ | ⟨hlt, heq⟩
  · rw [continuousSpace_of_le hle] at hs
    split_ifs at hs <;> rw [if_pos (by omega)] <;> constructor <;> omega
  · rw [continuousSpace_of_lt hlt] at hs
    rw [if_pos (by omega)]
    constructor <;> omega

/-- The payload fits nowhere behind the header, and there is no wrap to try. -/
theorem payloadSpace_refused (ht : WellSized t.ringSize) (hp : Positions t.ringSize R W)
    {s : ℕ} (hhead : W + 16 < R + t.ringSize)
    (hs : continuousSpace t.ringSize (R % t.ringSize) ((W + 16) % t.ringSize) < s)
    (hwrap : ¬ (R % t.ringSize < (W + 16) % t.ringSize ∧ R % t.ringSize ≠ 0)) :
    R + t.ringSize ≤ W + 16 + s := by
  have hgap := gap_cases (by have := hp.le; omega) hhead
  have hle := hp.le
  have hw := Nat.mod_lt (W + 16) ht.pos
  rcases hgap with ⟨hle, heq⟩ | ⟨hlt, heq⟩
  · rw [continuousSpace_of_le hle] at hs
    split_ifs at hs <;> omega
  · rw [continuousSpace_of_lt hlt] at hs
    omega

/-- The payload goes to the start of the ring exactly when it ends before the read
position there. -/
theorem payloadSpace_wrapped (ht : WellSized t.ringSize) (hp : Positions t.ringSize R W)
    {s : ℕ} (hhead : W + 16 < R + t.ringSize)
    (hs : continuousSpace t.ringSize (R % t.ringSize) ((W + 16) % t.ringSize) < s)
    (hlt : R % t.ringSize < (W + 16) % t.ringSize) (h0 : R % t.ringSize ≠ 0) :
    payloadPos t.ringSize 16 W s = W + 16 + (t.ringSize - (W + 16) % t.ringSize) ∧
      (s ≤ continuousSpace t.ringSize (R % t.ringSize) 0 ↔
        nextPos t.ringSize 16 W s < R + t.ringSize) := by
  have hgap := gap_cases (by have := hp.le; omega) hhead
  have hw := Nat.mod_lt (W + 16) ht.pos
  have hcont : t.ringSize - (W + 16) % t.ringSize < s := by
    rwa [continuousSpace_of_le hlt.le, if_neg h0] at hs
  have hpay : payloadPos t.ringSize 16 W s =
      W + 16 + (t.ringSize - (W + 16) % t.ringSize) := by
    unfold payloadPos
    rw [if_neg (by omega)]
  refine ⟨hpay, ?_⟩
  rw [nextPos, hpay, continuousSpace_of_lt (Nat.pos_of_ne_zero h0)]
  rcases hgap with ⟨_, heq⟩ | ⟨hlt', _⟩ <;> omega

end Accept

/-- Spec of the search for space between the cells of two positions. -/
theorem findSpace_eq {t : OctfTrace} (ht : WellSized t.ringSize) {R W : ℕ}
    (hp : Positions t.ringSize R W) (size : ℕ) (m : Shared) :
    findSpace t size (R % t.ringSize) (W % t.ringSize) m =
      if nextPos t.ringSize 16 W (alignedSize size) < R + t.ringSize then
        (some (W % t.ringSize, payloadPos t.ringSize 16 W (alignedSize size) % t.ringSize), m)
      else (none, m) := by
  have hr := Nat.mod_lt R ht.pos
  have hw := Nat.mod_lt W ht.pos
  have hq := Nat.mod_lt (W + 16) ht.pos
  have hNlt := ht.lt
  have hhead := head_le ht.dvd ht.pos hp.dvdW
  have hnext := le_nextPos (N := t.ringSize) (u := 16) W (alignedSize size)
  unfold findSpace checkData
  simp only [getContinuousSpace_eq m hr hw, traceEventHdrSize]
  by_cases hspace : R + t.ringSize ≤ W + 16
  · rw [if_pos ((headerSpace_iff ht hp).mpr hspace), if_neg (by omega)]
  · rw [if_neg (mt (headerSpace_iff ht hp).mp hspace), if_neg (by omega)]
    rw [movePtr_mod ht W (by decide), getContinuousSpace_eq m hr hq, ← alignedSize]
    have hlt : W + 16 < R + t.ringSize := by omega
    by_cases hfit : continuousSpace t.ringSize (R % t.ringSize) ((W + 16) % t.ringSize) <
        alignedSize size
    · simp only [if_pos hfit]
      by_cases hwrap : R % t.ringSize < (W + 16) % t.ringSize ∧ R % t.ringSize ≠ 0
      · -- the payload is too long for this lap: try the start of the ring
        obtain ⟨hpay, hiff⟩ := payloadSpace_wrapped ht hp hlt hfit hwrap.1 hwrap.2
        have hcont : continuousSpace t.ringSize (R % t.ringSize) ((W + 16) % t.ringSize) =
            t.ringSize - (W + 16) % t.ringSize := by
          rw [continuousSpace_of_le hwrap.1.le, if_neg hwrap.2]
        have hsum : (W + 16) % t.ringSize + (t.ringSize - (W + 16) % t.ringSize) =
            t.ringSize := by omega
        have hzero : movePtr t ((W + 16) % t.ringSize)
            (t.ringSize - (W + 16) % t.ringSize) = 0 := by
          rw [movePtr_eq ht hq.le (by omega), hsum, Nat.mod_self]
        have hcell : payloadPos t.ringSize 16 W (alignedSize size) % t.ringSize = 0 := by
          rw [hpay, ← Nat.mod_add_mod, hsum, Nat.mod_self]
        have hisWrap : (isWrap (R % t.ringSize) ((W + 16) % t.ringSize) &&
            R % t.ringSize != 0) = true := by
          simp [isWrap, hwrap.1, hwrap.2]
        rw [if_pos hisWrap, hcont, hzero]
        simp only [bne_self_eq_false, Shared.envBugOn, Bool.or_false]
        rw [getContinuousSpace_eq m hr ht.pos, hcell]
        by_cases hroom : alignedSize size ≤ continuousSpace t.ringSize (R % t.ringSize) 0
        · have hle : alignedSize size ≤ t.ringSize := by
            rw [continuousSpace_of_lt (Nat.pos_of_ne_zero hwrap.2)] at hroom
            omega
          simp only [if_neg (not_lt.mpr hroom), if_pos (hiff.mp hroom)]
          rw [if_neg (by omega)]
        · simp only [if_pos (not_le.mp hroom), if_neg (mt hiff.mpr hroom)]
      · have hno : ¬ (isWrap (R % t.ringSize) ((W + 16) % t.ringSize) &&
            R % t.ringSize != 0) = true := by
          simpa [isWrap] using hwrap
        have hfull := payloadSpace_refused ht hp hlt hfit hwrap
        rw [if_neg hno, if_neg (by omega)]
    · obtain ⟨hpay, hend⟩ := payloadSpace_fits ht hp hlt (not_lt.mp hfit)
      have hroom : (W + 16) % t.ringSize + alignedSize size ≤ t.ringSize := by
        have h := payload_le (N := t.ringSize) (u := 16) ht.pos (v := W) (s := alignedSize size)
          (by have := hp.le; omega)
        rwa [hpay] at h
      simp only [if_neg hfit]
      rw [nextPos, hpay, if_pos hend, if_neg (by omega)]

/-- The header goes in where there is room for it. -/
theorem prepareHeader_eq {t : OctfTrace} (ht : WellSized t.ringSize) {W : ℕ} (hW : 16 ∣ W)
    (p size : ℕ) (m : Shared) :
    prepareHeader t (W % t.ringSize) p size m =
      { m with ring := writeHdr m.ring (W % t.ringSize) ⟨false, size, p⟩ } := by
  have htouch : m.touch t (W % t.ringSize) traceEventHdrSize = m :=
    touch_of_le (head_le ht.dvd ht.pos hW)
  unfold prepareHeader
  rw [htouch]

/-- The write pointer behind the data of a record. -/
theorem movePtr_payload {t : OctfTrace} (ht : WellSized t.ringSize) (W size : ℕ) :
    movePtr t (payloadPos t.ringSize 16 W (alignedSize size) % t.ringSize)
      (alignedSize size) = nextPos t.ringSize 16 W (alignedSize size) % t.ringSize := by
  have hlt := alignedSize_lt size
  rw [movePtr_mod ht _ (by omega), nextPos]

/-- Spec of the allocation under the lock. -/
theorem allocateLocked_eq {t : OctfTrace} (ht : WellSized t.ringSize) {m : Shared} {R W : ℕ}
    (hp : Pointers t.ringSize m R W) (size : ℕ) :
    allocateLocked t size m =
      if nextPos t.ringSize 16 W (alignedSize size) < R + t.ringSize then
        (some (W % t.ringSize), m.allocated t.ringSize W size)
      else (none, m) := by
  unfold allocateLocked
  simp only [hp.rdPtr, hp.wrPtr, findSpace_eq ht hp.toPositions]
  split_ifs
  · simp only [prepareHeader_eq ht hp.dvdW]
    rw [← alignedSize, movePtr_payload ht]
    rfl
  · rfl

/-- Spec of `_allocate_event` with the lock free. -/
theorem allocateEvent_eq {t : OctfTrace} (ht : WellSized t.ringSize) {m : Shared} {R W : ℕ}
    (hp : Pointers t.ringSize m R W) (hlock : m.phdr.wrLock = 0) (size : ℕ) :
    allocateEvent t size m =
      if nextPos t.ringSize 16 W (alignedSize size) < R + t.ringSize then
        (some (W % t.ringSize), m.allocated t.ringSize W size)
      else (none, m) := by
  have hp' : Pointers t.ringSize (m.setWrLock 1) R W := ⟨hp.toPositions, hp.rdPtr, hp.wrPtr⟩
  have hunlock : ∀ m' : Shared, m'.phdr.wrLock = 0 → (m'.setWrLock 1).setWrLock 0 = m' := by
    intro m' h
    cases m' with | mk phdr _ _ _ _ => cases phdr; simp_all [Shared.setWrLock]
  unfold allocateEvent
  simp only [tryLockWr, if_pos hlock, allocateLocked_eq ht hp']
  split_ifs
  · have h := hunlock (m.allocated t.ringSize W size) hlock
    exact Prod.ext rfl h
  · exact Prod.ext rfl (hunlock m hlock)

end Octf.Trace
