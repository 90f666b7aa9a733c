import Octf.Trace.Allocation
import Octf.Trace.Session

/-! Event headers and payloads as cells of the ring: what a header write stores, which
cells an event owns, and that consecutive records own different ones. -/
namespace Octf.Trace
open Foundation Foundation.RecordRing

/-! ### Headers -/

theorem setReady_of_ne (ring : Memory) {p a : ℕ} (ready : Bool) (h : a ≠ p) :
    setReady ring p ready a = ring a := by
  unfold setReady
  rcases Nat.lt_or_gt_of_ne h with hlt | hgt
  · exact ring.store_of_lt _ hlt
  · exact ring.store_of_ge _ (by simp only [List.length_singleton]; omega)

theorem setReady_ready (ring : Memory) (p : ℕ) (ready : Bool) :
    decide ((setReady ring p ready p).toNat % 2 = 1) = ready := by
  have h := ring.store_of_mem (p := p) (i := 0)
    [UInt8.ofNat ((ring p).toNat / 2 * 2 + ready.toNat)] (by simp)
  have hlt := (ring p).toNat_lt
  simp only [Nat.add_zero, List.getElem_cons_zero] at h
  rw [setReady, h, UInt8.toNat_ofNat']
  cases ready <;> simp only [Bool.toNat_false, Bool.toNat_true, decide_eq_true_eq,
    decide_eq_false_iff_not] <;> omega

/-- Setting the `ready` bit changes nothing else in the header. -/
theorem readHdr_setReady (ring : Memory) (p : ℕ) (ready : Bool) :
    readHdr (setReady ring p ready) p = { readHdr ring p with ready := ready } := by
  have hload : ∀ off n, 0 < off → (setReady ring p ready).load (p + off) n =
      ring.load (p + off) n := by
    intro off n hoff
    apply Memory.load_congr
    intro i _
    exact setReady_of_ne ring ready (by omega)
  simp only [readHdr, setReady_ready, hload 1 4 (by decide), hload 5 8 (by decide)]

theorem writeHdr_of_outside (ring : Memory) {p a : ℕ} (h : TraceEventHdr)
    (ha : a < p ∨ p + 16 ≤ a) : writeHdr ring p h a = ring a := by
  unfold writeHdr
  rcases ha with ha | ha
  · rw [Memory.store_of_lt _ _ (by omega), Memory.store_of_lt _ _ (by omega),
      setReady_of_ne _ _ (by omega)]
  · rw [Memory.store_of_ge _ _ (by simp; omega), Memory.store_of_ge _ _ (by simp; omega),
      setReady_of_ne _ _ (by omega)]

/-- A header is read back as it was written. -/
theorem readHdr_writeHdr (ring : Memory) (p : ℕ) {h : TraceEventHdr}
    (hsize : h.dataSize < 2 ^ 32) (hptr : h.dataPtr < 2 ^ 64) :
    readHdr (writeHdr ring p h) p = h := by
  have hready : writeHdr ring p h p = setReady ring p h.ready p := by
    unfold writeHdr
    rw [Memory.store_of_lt _ _ (by omega), Memory.store_of_lt _ _ (by omega)]
  have hs : (writeHdr ring p h).load (p + 1) 4 = toLittleEndian 4 h.dataSize := by
    have hl := ((setReady ring p h.ready).store (p + 5)
      (toLittleEndian 8 h.dataPtr)).load_store_same (p + 1) (toLittleEndian 4 h.dataSize)
    rwa [length_toLittleEndian] at hl
  have hp : (writeHdr ring p h).load (p + 5) 8 = toLittleEndian 8 h.dataPtr := by
    unfold writeHdr
    rw [Memory.load_store_disjoint _ _ (by simp)]
    have hl := (setReady ring p h.ready).load_store_same (p + 5) (toLittleEndian 8 h.dataPtr)
    rwa [length_toLittleEndian] at hl
  unfold readHdr
  rw [hready, hs, hp, setReady_ready, littleEndian_toLittleEndian _ _ (by norm_num; omega),
    littleEndian_toLittleEndian _ _ (by norm_num; omega)]

theorem readHdr_congr {ring ring' : Memory} {p : ℕ}
    (h : ∀ i < 16, ring' (p + i) = ring (p + i)) : readHdr ring' p = readHdr ring p := by
  have h0 : ring' p = ring p := h 0 (by decide)
  have hload : ∀ off n, off + n ≤ 16 → ring'.load (p + off) n = ring.load (p + off) n := by
    intro off n hn
    apply Memory.load_congr
    intro i hi
    rw [Nat.add_assoc]
    exact h (off + i) (by omega)
  unfold readHdr
  rw [h0, hload 1 4 (by decide), hload 5 8 (by decide)]

/-! ### The cells of an event -/

namespace Place

/-- Address `a` belongs neither to the header nor to the aligned payload. -/
def Outside (e : Place) (a : ℕ) : Prop :=
  (a < e.hdr ∨ e.hdr + 16 ≤ a) ∧ (a < e.ptr ∨ e.ptr + traceAlign e.size ≤ a)

/-- Two stretches of the ring do not meet. -/
def Apart (a l b k : ℕ) : Prop := a + l ≤ b ∨ b + k ≤ a

/-- Two events share no cell. -/
structure Disjoint (e f : Place) : Prop where
  hdr_hdr : Apart e.hdr 16 f.hdr 16
  hdr_ptr : Apart e.hdr 16 f.ptr (traceAlign f.size)
  ptr_hdr : Apart e.ptr (traceAlign e.size) f.hdr 16
  ptr_ptr : Apart e.ptr (traceAlign e.size) f.ptr (traceAlign f.size)

theorem Disjoint.symm {e f : Place} (h : e.Disjoint f) : f.Disjoint e :=
  ⟨h.hdr_hdr.symm, h.ptr_hdr.symm, h.hdr_ptr.symm, h.ptr_ptr.symm⟩

theorem Disjoint.hdr_outside {e f : Place} (h : e.Disjoint f) {i : ℕ} (hi : i < 16) :
    f.Outside (e.hdr + i) := by
  have h1 := h.hdr_hdr
  have h2 := h.hdr_ptr
  unfold Apart at h1 h2
  constructor <;> omega

theorem Disjoint.ptr_outside {e f : Place} (h : e.Disjoint f) {i : ℕ}
    (hi : i < traceAlign e.size) : f.Outside (e.ptr + i) := by
  have h1 := h.ptr_hdr
  have h2 := h.ptr_ptr
  unfold Apart at h1 h2
  constructor <;> omega

/-- The place the record at position `v` is given. -/
def ofPos (N v size : ℕ) : Place where
  hdr := v % N
  ptr := payloadPos N 16 v (traceAlign size) % N
  size := size

/-- Records that follow one another within a lap share no cell. -/
theorem ofPos_disjoint {N v w s s' : ℕ} (hvw : nextPos N 16 v (traceAlign s) ≤ w)
    (hlap : nextPos N 16 w (traceAlign s') ≤ v + N) :
    (ofPos N v s).Disjoint (ofPos N w s') := by
  have hv := le_payloadPos (N := N) (u := 16) v (traceAlign s)
  have hw := le_payloadPos (N := N) (u := 16) w (traceAlign s')
  have hvn := le_nextPos (N := N) (u := 16) v (traceAlign s)
  have hwn := le_nextPos (N := N) (u := 16) w (traceAlign s')
  unfold nextPos at hvw hlap hvn hwn
  constructor <;> simp only [ofPos, Apart] <;> exact cells_disjoint (by omega) (by omega)

end Place

/-- The places of consecutive records from position `v` on. -/
def places (N : ℕ) : ℕ → List ℕ → List Place
  | _, [] => []
  | v, s :: sizes => Place.ofPos N v s :: places N (nextPos N 16 v (traceAlign s)) sizes

/-- The position behind records of these event sizes. -/
def endOf (N v : ℕ) (sizes : List ℕ) : ℕ := endPos N 16 v (sizes.map traceAlign)

@[simp] theorem endOf_nil (N v : ℕ) : endOf N v [] = v := rfl

@[simp] theorem endOf_cons (N v s : ℕ) (sizes : List ℕ) :
    endOf N v (s :: sizes) = endOf N (nextPos N 16 v (traceAlign s)) sizes := rfl

theorem endOf_append (N v : ℕ) (xs ys : List ℕ) :
    endOf N v (xs ++ ys) = endOf N (endOf N v xs) ys := by
  simp [endOf]

theorem le_endOf (N v : ℕ) (sizes : List ℕ) : v ≤ endOf N v sizes := le_endPos v _

@[simp] theorem length_places (N v : ℕ) (sizes : List ℕ) :
    (places N v sizes).length = sizes.length := by
  induction sizes generalizing v with
  | nil => rfl
  | cons s sizes ih => simp [places, ih]

theorem places_append (N v : ℕ) (xs ys : List ℕ) :
    places N v (xs ++ ys) = places N v xs ++ places N (endOf N v xs) ys := by
  induction xs generalizing v with
  | nil => rfl
  | cons s xs ih => simp [places, ih]

/-- Every place of a run of records starts and ends inside the run. -/
theorem exists_of_mem_places {N v : ℕ} {sizes : List ℕ} (hN : 16 ∣ N) (hv : 16 ∣ v) {e : Place}
    (he : e ∈ places N v sizes) :
    ∃ x, 16 ∣ x ∧ v ≤ x ∧ nextPos N 16 x (traceAlign e.size) ≤ endOf N v sizes ∧
      e = Place.ofPos N x e.size := by
  induction sizes generalizing v with
  | nil => simp [places] at he
  | cons s sizes ih =>
    have hnext := le_nextPos (N := N) (u := 16) v (traceAlign s)
    rcases List.mem_cons.mp he with rfl | he
    · exact ⟨v, hv, le_rfl, le_endOf N _ sizes, rfl⟩
    · obtain ⟨x, hx, hvx, hend, heq⟩ := ih (dvd_nextPos hN hv (dvd_traceAlign s)) he
      exact ⟨x, hx, by omega, hend, heq⟩

/-- A new record behind the run shares no cell with its records. -/
theorem disjoint_new {N v size : ℕ} {sizes : List ℕ} (hN : 16 ∣ N) (hv : 16 ∣ v)
    (hlap : nextPos N 16 (endOf N v sizes) (traceAlign size) ≤ v + N) {e : Place}
    (he : e ∈ places N v sizes) : e.Disjoint (Place.ofPos N (endOf N v sizes) size) := by
  obtain ⟨x, _, hvx, hend, heq⟩ := exists_of_mem_places hN hv he
  rw [heq]
  exact Place.ofPos_disjoint hend (by omega)

/-- Records that together take at most one lap share no cell pairwise. -/
theorem places_pairwise {N v : ℕ} {sizes : List ℕ} (hN : 16 ∣ N) (hv : 16 ∣ v)
    (hlap : endOf N v sizes ≤ v + N) : (places N v sizes).Pairwise Place.Disjoint := by
  induction sizes generalizing v with
  | nil => exact List.Pairwise.nil
  | cons s sizes ih =>
    have hnext := le_nextPos (N := N) (u := 16) v (traceAlign s)
    have hdvd := dvd_nextPos hN hv (dvd_traceAlign s)
    rw [endOf_cons] at hlap
    refine List.Pairwise.cons (fun e he => ?_) (ih hdvd (by omega))
    obtain ⟨x, _, hvx, hend, heq⟩ := exists_of_mem_places hN hdvd he
    rw [heq]
    exact Place.ofPos_disjoint hvx (by omega)

/-- Header and payload of a place lie inside the ring. -/
theorem Place.ofPos_inside {N : ℕ} (hN : WellSized N) {x size : ℕ} (hx : 16 ∣ x)
    (hlap : traceAlign size ≤ N) :
    (Place.ofPos N x size).hdr + 16 ≤ N ∧
      (Place.ofPos N x size).ptr + traceAlign size ≤ N :=
  ⟨head_le hN.dvd hN.pos hx, payload_le hN.pos hlap⟩

end Octf.Trace
