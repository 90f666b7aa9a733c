import Octf.Trace.Layout

/-! The invariant of a session. The accepted events split into those the consumer has
finished with and those still in the ring; the latter lie behind one another from the
read position to the write position, each with its header and bytes intact. -/
namespace Octf.Trace
open Foundation Foundation.RecordRing

/-- The handles of one opened ring of `N` bytes. -/
structure Handles.Opened (h : Handles) (N : ℕ) : Prop where
  lawful : h.lib.Lawful
  sized : WellSized N
  producerMode : h.producer.mode = .producer
  consumerMode : h.consumer.mode = .consumer
  producerSize : h.producer.ringSize = N
  consumerSize : h.consumer.ringSize = N

/-- The ring holds the event: its header and, unless the library has refused a copy, the
bytes the producer has stored. -/
structure Event.InRing (refused : Bool) (ring : Memory) (e : Event) : Prop where
  hdr : readHdr ring e.hdr = ⟨e.committed, e.size, e.ptr⟩
  bytes : refused = false → ring.load e.ptr e.size = e.bytes

/-- Writes into the cells of another event leave an event as it is. -/
theorem Event.InRing.frame {refused refused' : Bool} {ring ring' : Memory} {e : Event} {f : Place}
    (h : e.InRing refused ring) (hd : e.toPlace.Disjoint f)
    (hout : ∀ a, f.Outside a → ring' a = ring a) (hrefused : refused' = false → refused = false) :
    e.InRing refused' ring' := by
  constructor
  · rw [readHdr_congr fun i hi => hout _ (hd.hdr_outside hi)]
    exact h.hdr
  · intro hcopied
    have hload : ring'.load e.ptr e.size = ring.load e.ptr e.size := by
      apply Memory.load_congr
      intro i hi
      exact hout _ (hd.ptr_outside (lt_of_lt_of_le hi (le_traceAlign e.size)))
    rw [hload]
    exact h.bytes (hrefused hcopied)

/-- The events were handed over and, unless the library has refused a copy, their bytes. -/
structure Handed (refused : Bool) (given : List (ℕ × List UInt8)) (events : List Event) : Prop where
  sizes : given.map Prod.fst = events.map fun e => e.size
  contents : refused = false → given = events.map Event.content

namespace Handed

variable {refused refused' : Bool} {given : List (ℕ × List UInt8)} {events : List Event}

theorem length_eq (h : Handed refused given events) : given.length = events.length := by
  simpa using congrArg List.length h.sizes

theorem mono (h : Handed refused given events) (hrefused : refused' = false → refused = false) :
    Handed refused' given events :=
  ⟨h.sizes, fun hcopied => h.contents (hrefused hcopied)⟩

/-- One more event is handed over. -/
theorem snoc (h : Handed refused given events) {e : Event} {bytes : List UInt8}
    (hrefused : refused' = false → refused = false) (hbytes : refused' = false → bytes = e.bytes) :
    Handed refused' (given ++ [(e.size, bytes)]) (events ++ [e]) := by
  refine ⟨by simp [h.sizes], fun hcopied => ?_⟩
  rw [h.contents (hrefused hcopied), hbytes hcopied, List.map_append]
  rfl

end Handed

/-- What the consumer side records, against the finished and the pending events. -/
def Reading (s : Session) (done pending : List Event) : Prop :=
  match s.held with
  | none => s.shared.chdr.rdLock = 0 ∧ Handed s.shared.refused s.given done
  | some hdr => s.shared.chdr.rdLock = 1 ∧ ∃ e es, pending = e :: es ∧ e.hdr = hdr ∧
      e.committed = true ∧ Handed s.shared.refused s.given (done ++ [e])

/-- The invariant, for a read position `R` and the split of the accepted events. -/
structure Inv (N : ℕ) (s : Session) (R : ℕ) (done pending : List Event) : Prop where
  split : s.accepted = done ++ pending
  pointers : Pointers N s.shared R (endOf N R (pending.map fun e => e.size))
  laid : pending.map Event.toPlace = places N R (pending.map fun e => e.size)
  stored : ∀ e ∈ pending, e.InRing s.shared.refused s.shared.ring
  small : ∀ e ∈ pending, e.size ≤ 2 ^ 32 - 16
  doneCommitted : ∀ e ∈ done, e.committed = true
  reading : Reading s done pending
  valid : isTraceValid s.shared = true
  wrLock : s.shared.phdr.wrLock = 0
  bug : s.shared.bug = false
  outside : s.shared.outside = false

theorem integrityCheck_of_le {t : OctfTrace} (ht : WellSized t.ringSize) {p n : ℕ}
    (hp : p < t.ringSize) (h : p + n ≤ t.ringSize) : integrityCheck t p n = true := by
  have hlt := ht.lt
  have hmod : (p + n) % 2 ^ 64 = p + n := Nat.mod_eq_of_lt (by omega)
  unfold integrityCheck
  rw [if_neg (by omega), hmod, if_neg (by omega), if_neg (by omega)]

/-- A copy that fills its destination replaces it. -/
theorem SafeString.Lawful.memcpyS_whole {lib : SafeString} (h : lib.Lawful) {dest src : List UInt8}
    (hl : src.length = dest.length) (hbound : dest.length ≤ rsizeMaxMem) :
    lib.memcpyS dest src = src := by
  rcases Nat.eq_zero_or_pos src.length with h0 | hpos
  · have hd := h.length_memcpyS dest src
    rw [← hl, h0] at hd
    rw [List.length_eq_zero_iff.mp hd, List.length_eq_zero_iff.mp h0]
  · rw [h.memcpyS_eq dest src hpos hl.le hbound, hl, List.drop_length, List.append_nil]

namespace Inv

variable {N R : ℕ} {s : Session} {done pending : List Event}

/-- The write position. -/
abbrev W (N R : ℕ) (pending : List Event) : ℕ := endOf N R (pending.map fun e => e.size)

theorem pairwise (hN : WellSized N) (h : Inv N s R done pending) :
    pending.Pairwise fun e f => e.toPlace.Disjoint f.toPlace := by
  have hp := places_pairwise hN.dvd h.pointers.dvdR h.pointers.lt.le
  rw [← h.laid] at hp
  exact List.pairwise_map.mp hp

theorem disjoint_new (hN : WellSized N) (h : Inv N s R done pending) {size : ℕ}
    (hfit : nextPos N 16 (W N R pending) (traceAlign size) < R + N) {e : Event}
    (he : e ∈ pending) : e.toPlace.Disjoint (Place.ofPos N (W N R pending) size) := by
  apply Trace.disjoint_new hN.dvd h.pointers.dvdR hfit.le
  rw [← h.laid]
  exact List.mem_map_of_mem he

/-- Header and payload of a pending event lie inside the ring. -/
theorem inside (hN : WellSized N) (h : Inv N s R done pending) {e : Event} (he : e ∈ pending) :
    e.hdr + 16 ≤ N ∧ e.ptr + traceAlign e.size ≤ N ∧ e.ptr < N := by
  have hmem : e.toPlace ∈ places N R (pending.map fun e => e.size) := by
    rw [← h.laid]
    exact List.mem_map_of_mem he
  obtain ⟨x, hx, hRx, hend, heq⟩ := exists_of_mem_places hN.dvd h.pointers.dvdR hmem
  have hnext := le_nextPos (N := N) (u := 16) x (traceAlign e.size)
  have hlt := h.pointers.lt
  have halign : traceAlign e.size ≤ N := by omega
  obtain ⟨hh, hp⟩ := Place.ofPos_inside hN hx halign
  rw [heq]
  exact ⟨hh, hp, Nat.mod_lt _ hN.pos⟩

/-- The payload of a pending event passes the integrity check of either handle. -/
theorem integrityCheck_pending (hN : WellSized N) (h : Inv N s R done pending) {t : OctfTrace}
    (ht : t.ringSize = N) {e : Event} (he : e ∈ pending) :
    integrityCheck t e.ptr e.size = true := by
  obtain ⟨_, hptr, hlt⟩ := h.inside hN he
  have hle := le_traceAlign e.size
  apply integrityCheck_of_le <;> rw [ht]
  · exact hN
  · exact hlt
  · omega

/-- A further record behind the write position keeps the invariant. -/
theorem append (hN : WellSized N) (h : Inv N s R done pending) {e : Event} {m : Shared}
    (hfit : nextPos N 16 (W N R pending) (traceAlign e.size) < R + N)
    (hsize : e.size ≤ 2 ^ 32 - 16)
    (hplace : e.toPlace = Place.ofPos N (W N R pending) e.size) (hin : e.InRing m.refused m.ring)
    (hring : ∀ a, e.toPlace.Outside a → m.ring a = s.shared.ring a)
    (hchdr : m.chdr = s.shared.chdr)
    (hphdr : m.phdr = { s.shared.phdr with
      wrPtr := nextPos N 16 (W N R pending) (traceAlign e.size) % N })
    (hrefused : m.refused = false → s.shared.refused = false)
    (hbug : m.bug = false) (hout : m.outside = false) :
    Inv N { s with shared := m, accepted := s.accepted ++ [e] } R done (pending ++ [e]) := by
  have hend : endOf N R ((pending ++ [e]).map fun e => e.size) =
      nextPos N 16 (W N R pending) (traceAlign e.size) := by
    simp [endOf_append]
  have hnext := le_nextPos (N := N) (u := 16) (W N R pending) (traceAlign e.size)
  have hle : R ≤ W N R pending := h.pointers.le
  refine ⟨?_, ?_, ?_, ?_, ?_, h.doneCommitted, ?_, ?_, ?_, hbug, hout⟩
  · simp [h.split]
  · rw [hend]
    exact ⟨⟨h.pointers.dvdR, dvd_nextPos hN.dvd h.pointers.dvdW (dvd_traceAlign _), by omega,
      hfit⟩, by rw [hchdr]; exact h.pointers.rdPtr, by rw [hphdr]⟩
  · simp only [List.map_append, List.map_cons, List.map_nil, places_append, places]
    rw [h.laid, ← hplace]
  · intro f hf
    rcases List.mem_append.mp hf with hf | hf
    · refine (h.stored f hf).frame ?_ hring hrefused
      rw [hplace]
      exact h.disjoint_new hN hfit hf
    · rw [List.mem_singleton.mp hf]
      exact hin
  · intro f hf
    rcases List.mem_append.mp hf with hf | hf
    · exact h.small f hf
    · rw [List.mem_singleton.mp hf]
      exact hsize
  · have hread := h.reading
    unfold Reading at hread ⊢
    simp only [hchdr]
    cases hheld : s.held with
    | none =>
      simp only [hheld] at hread
      exact ⟨hread.1, hread.2.mono hrefused⟩
    | some hdr =>
      simp only [hheld] at hread
      obtain ⟨hlock, f, fs, hpend, hhdr, hc, hgiven⟩ := hread
      exact ⟨hlock, f, fs ++ [e], by simp [hpend], hhdr, hc, hgiven.mono hrefused⟩
  · have hv := h.valid
    unfold isTraceValid at hv ⊢
    rw [hphdr]
    exact hv
  · rw [hphdr]
    exact h.wrLock

/-- The number of an uncommitted event points into the pending ones. -/
theorem uncommitted_index (h : Inv N s R done pending) {i : ℕ} {e : Event}
    (he : s.accepted[i]? = some e) (hc : e.committed = false) :
    ∃ j, i = done.length + j ∧ pending[j]? = some e := by
  rw [h.split] at he
  rcases Nat.lt_or_ge i done.length with hlt | hge
  · rw [List.getElem?_append_left hlt] at he
    have hd := h.doneCommitted e (List.mem_of_getElem? he)
    rw [hd] at hc
    exact absurd hc (by decide)
  · rw [List.getElem?_append_right hge] at he
    exact ⟨i - done.length, by omega, he⟩

/-- Changing the bytes or the `ready` bit of one pending event keeps the invariant. -/
theorem update (hN : WellSized N) (h : Inv N s R done pending) {i : ℕ} {e e' : Event}
    {ring : Memory} {refused : Bool} (he : s.accepted[i]? = some e) (hc : e.committed = false)
    (hplace : e'.toPlace = e.toPlace) (hin : e'.InRing refused ring)
    (hring : ∀ a, e.toPlace.Outside a → ring a = s.shared.ring a)
    (hrefused : refused = false → s.shared.refused = false) :
    ∃ pending', Inv N { s with
      shared := { s.shared with ring := ring, refused := refused },
      accepted := s.accepted.set i e' } R done pending' ∧ ∃ j, i = done.length + j ∧
        pending' = pending.set j e' := by
  obtain ⟨j, hij, hj⟩ := h.uncommitted_index he hc
  obtain ⟨hjlt, hje⟩ := List.getElem?_eq_some_iff.mp hj
  have hmap : (pending.set j e').map Event.toPlace = pending.map Event.toPlace := by
    rw [List.map_set, hplace, ← hje]
    apply List.ext_getElem?
    intro k
    by_cases hk : j = k
    · subst hk
      simp [hjlt]
    · simp [hk]
  have hsizes : ((pending.set j e').map fun e => e.size) = pending.map fun e => e.size := by
    have hs : ∀ l : List Event, (l.map fun e => e.size) = (l.map Event.toPlace).map Place.size := by
      intro l
      simp [Function.comp_def]
    rw [hs, hmap, ← hs]
  refine ⟨pending.set j e', ⟨?_, ?_, ?_, ?_, ?_, h.doneCommitted, ?_, h.valid, h.wrLock, h.bug,
    h.outside⟩, j, hij, rfl⟩
  · simp [h.split, hij, List.set_append_right]
  · rw [hsizes]
    exact ⟨h.pointers.toPositions, h.pointers.rdPtr, h.pointers.wrPtr⟩
  · rw [hmap, hsizes]
    exact h.laid
  · intro f hf
    obtain ⟨k, hk, rfl⟩ := List.mem_iff_getElem.mp hf
    rw [List.length_set] at hk
    by_cases hkj : j = k
    · simpa [hkj] using hin
    · -- another event shares no cell with the changed one
      have hd : (pending[k]).toPlace.Disjoint e.toPlace := by
        have hpw := List.pairwise_iff_getElem.mp (h.pairwise hN)
        rw [← hje]
        rcases Nat.lt_or_gt_of_ne hkj with hlt | hgt
        · exact (hpw j k hjlt hk hlt).symm
        · exact hpw k j hk hjlt hgt
      rw [List.getElem_set_ne hkj]
      exact (h.stored _ (List.getElem_mem hk)).frame hd hring hrefused
  · intro f hf
    rcases List.mem_or_eq_of_mem_set hf with hf | rfl
    · exact h.small f hf
    · have hs := h.small e (List.mem_of_getElem? hj)
      have hsz : f.size = e.size := congrArg Place.size hplace
      omega
  · have hread := h.reading
    unfold Reading at hread ⊢
    cases hheld : s.held with
    | none =>
      simp only [hheld] at hread
      exact ⟨hread.1, hread.2.mono hrefused⟩
    | some hdr =>
      simp only [hheld] at hread
      obtain ⟨hlock, f, fs, hpend, hhdr, hcom, hgiven⟩ := hread
      -- the event being read is committed, so it is not the changed one
      cases j with
      | zero =>
        rw [hpend] at hj
        obtain rfl := Option.some.inj hj
        rw [hcom] at hc
        exact absurd hc (by decide)
      | succ j => exact ⟨hlock, f, fs.set j e', by simp [hpend], hhdr, hcom, hgiven.mono hrefused⟩

end Inv

end Octf.Trace
