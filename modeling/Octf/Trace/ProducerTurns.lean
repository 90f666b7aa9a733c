import Octf.Trace.Interleaving

/-! The producer's turns keep the session invariant, whatever the consumer did in between.
Between publishing an event and its integrity check only an event above `2 ^ 32 - 16`
bytes can leave the invariant; from then on the trace is spoiled and never closed. -/
namespace Octf.Trace
open Foundation Foundation.RecordRing

/-- The session with both locks as they are between calls. -/
def Session.unlocked (s : Session) : Session :=
  { s with shared := (s.shared.setWrLock 0).setRdLock (if s.held.isSome then 1 else 0) }

/-- Event number `i` was accepted with this header and size and is not committed. -/
def InFlight (s : Session) (i hdr size : ℕ) : Prop :=
  ∃ e, s.accepted[i]? = some e ∧ e.committed = false ∧ e.hdr = hdr ∧ e.size = size

/-- What the producer's local variables say, for the read position `R` and the write
position `V`. -/
def ProducerOk (N R V : ℕ) (s : Session) : ProducerPc → Prop
  | .idle | .incLost | .setClosed | .closed | .unlockWr _ none => True
  | .lockWr r | .readWrPtr r => r.size < 2 ^ 32
  | .readRdPtr r wrp => r.size < 2 ^ 32 ∧ wrp = V % N
  | .prepare r wrp rdp => r.size < 2 ^ 32 ∧ wrp = V % N ∧
      ∃ R₀, Positions N R₀ V ∧ R₀ ≤ R ∧ rdp = R₀ % N
  | .setWrPtr r hdr wrp => r.size < 2 ^ 32 ∧ hdr = V % N ∧
      nextPos N 16 V (alignedSize r.size) < R + N ∧
      wrp = nextPos N 16 V (alignedSize r.size) % N ∧
      readHdr s.shared.ring hdr = ⟨false, r.size, payloadPos N 16 V (alignedSize r.size) % N⟩
  | .unlockWr r (some hdr) | .check r hdr => InFlight s (s.accepted.length - 1) hdr r.size
  | .copy event hdr => InFlight s (s.accepted.length - 1) hdr event.length
  | .checkCommit i hdr | .setReady i hdr => ∃ size, InFlight s i hdr size

/-- Accepted events stay, and committed ones stay as they are. -/
structure Grows (l l' : List Event) : Prop where
  length : l.length ≤ l'.length
  committed : ∀ (k : ℕ) (e : Event), l[k]? = some e → e.committed = true → l'[k]? = some e

theorem Grows.refl (l : List Event) : Grows l l := ⟨le_rfl, fun _ _ h _ => h⟩

theorem grows_append (l : List Event) (e : Event) : Grows l (l ++ [e]) where
  length := by simp
  committed := by
    intro k f hf _
    rw [List.getElem?_append_left (List.getElem?_eq_some_iff.mp hf).1]
    exact hf

theorem grows_set {l : List Event} {i : ℕ} {e : Event} (he : l[i]? = some e)
    (hc : e.committed = false) (e' : Event) : Grows l (l.set i e') where
  length := by simp
  committed := by
    intro k f hf hcf
    have hne : i ≠ k := by
      rintro rfl
      rw [he] at hf
      rw [Option.some.inj hf, hcf] at hc
      exact absurd hc (by decide)
    rw [List.getElem?_set_ne hne]
    exact hf

theorem modify_eq_set {l : List Event} {i : ℕ} {e : Event} (he : l[i]? = some e)
    (f : Event → Event) : l.modify i f = l.set i (f e) := by
  apply List.ext_getElem?
  intro k
  rw [List.getElem?_modify, List.getElem?_set]
  by_cases hk : i = k
  · subst hk
    obtain ⟨hlt, heq⟩ := List.getElem?_eq_some_iff.mp he
    simp [hlt, heq]
  · simp [hk]

/-- What a producer's turn leaves for the consumer. -/
structure ProducerKeeps (N R : ℕ) (done : List Event) (s s' : Session) (pc' : ProducerPc) :
    Prop where
  inv : ∃ pending', Inv N s'.unlocked R done pending' ∧
    ProducerOk N R (Inv.W N R pending') s' pc'
  grows : Grows s.accepted s'.accepted
  chdr : s'.shared.chdr = s.shared.chdr
  held : s'.held = s.held
  closed : s'.shared.phdr.closed = s.shared.phdr.closed
  refused : s'.shared.refused = false → s.shared.refused = false

section Keeps

variable {h : Handles} {N R : ℕ} {s : Session} {done pending : List Event}

/-- A turn that leaves the events as they are. -/
theorem keeps_shared {m : Shared} {pc' : ProducerPc}
    (hinv : Inv N ({ s with shared := m } : Session).unlocked R done pending)
    (hpc : ProducerOk N R (Inv.W N R pending) { s with shared := m } pc')
    (hchdr : m.chdr = s.shared.chdr) (hclosed : m.phdr.closed = s.shared.phdr.closed)
    (hrefused : m.refused = s.shared.refused) :
    ProducerKeeps N R done s { s with shared := m } pc' :=
  ⟨⟨pending, hinv, hpc⟩, Grows.refl _, hchdr, rfl, hclosed, fun hcopied => by
    rwa [← hrefused]⟩

theorem fill_unlocked (i off : ℕ) (bytes : List UInt8) :
    (s.fill h i off bytes).unlocked = s.unlocked.fill h i off bytes := by
  have haccepted : s.unlocked.accepted = s.accepted := rfl
  unfold Session.fill
  rw [haccepted]
  cases s.accepted[i]? with
  | none => rfl
  | some e =>
    simp only
    split_ifs <;> rfl

theorem keeps_fill (ho : h.Opened N) (hi : Inv N s.unlocked R done pending) (i off : ℕ)
    (bytes : List UInt8) : ProducerKeeps N R done s (s.fill h i off bytes) .idle := by
  obtain ⟨pending', hi'⟩ := hi.fill ho i off bytes
  rw [← fill_unlocked] at hi'
  have hframe : Grows s.accepted (s.fill h i off bytes).accepted ∧
      (s.fill h i off bytes).shared.chdr = s.shared.chdr ∧
      (s.fill h i off bytes).held = s.held ∧
      (s.fill h i off bytes).shared.phdr = s.shared.phdr ∧
      (s.fill h i off bytes).shared.refused = s.shared.refused := by
    unfold Session.fill
    cases he : s.accepted[i]? with
    | none => exact ⟨Grows.refl _, rfl, rfl, rfl, rfl⟩
    | some e =>
      simp only
      split_ifs with hc
      · exact ⟨grows_set he hc.1 _, rfl, rfl, rfl, rfl⟩
      · exact ⟨Grows.refl _, rfl, rfl, rfl, rfl⟩
  obtain ⟨hgrows, hchdr, hheld, hphdr, hrefused⟩ := hframe
  exact ⟨⟨pending', hi', trivial⟩, hgrows, hchdr, hheld, by rw [hphdr], fun hcopied => by
    rwa [← hrefused]⟩

theorem tryLockWr_snd (retry : ℕ) (m : Shared) :
    (tryLockWr retry m).2 = m ∨ (tryLockWr retry m).2 = m.setWrLock 1 := by
  induction retry with
  | zero => exact .inl rfl
  | succ retry ih =>
    unfold tryLockWr
    split_ifs
    · exact .inr rfl
    · exact ih

theorem keeps_lockWr (hi : Inv N s.unlocked R done pending) {call : ProducerCall} {r : Request}
    (hr : r.size < 2 ^ 32) : ProducerKeeps N R done s (producerStep h call s (.lockWr r)).1
      (producerStep h call s (.lockWr r)).2 := by
  have hlock := tryLockWr_snd 129 s.shared
  unfold producerStep
  generalize tryLockWr 129 s.shared = r at hlock
  rcases r with ⟨_ | _, m⟩ <;> simp only at hlock ⊢ <;> rcases hlock with rfl | rfl
  · exact keeps_shared hi trivial rfl rfl rfl
  · exact keeps_shared hi trivial rfl rfl rfl
  · exact keeps_shared hi hr rfl rfl rfl
  · exact keeps_shared hi hr rfl rfl rfl

/-- The invariant does not depend on cells outside the pending events. -/
theorem Inv.withRing (hi : Inv N s R done pending) {ring : Memory}
    (hring : ∀ e ∈ pending, e.InRing s.shared.refused ring) :
    Inv N { s with shared := { s.shared with ring := ring } } R done pending :=
  ⟨hi.split, ⟨hi.pointers.toPositions, hi.pointers.rdPtr, hi.pointers.wrPtr⟩, hi.laid, hring,
    hi.small, hi.doneCommitted, hi.reading, hi.valid, hi.wrLock, hi.bug, hi.outside⟩

/-- Preparing a header writes outside all pending events. -/
theorem keeps_prepare (ho : h.Opened N) (hi : Inv N s.unlocked R done pending)
    {call : ProducerCall} {r : Request} {wrp rdp : ℕ}
    (hpc : ProducerOk N R (Inv.W N R pending) s (.prepare r wrp rdp)) :
    ProducerKeeps N R done s (producerStep h call s (.prepare r wrp rdp)).1
      (producerStep h call s (.prepare r wrp rdp)).2 := by
  obtain ⟨hr, rfl, R₀, hpos, hR, rfl⟩ := hpc
  have ht : WellSized h.producer.ringSize := by rw [ho.producerSize]; exact ho.sized
  have hN := ho.sized.lt
  have hptr := Nat.mod_lt (payloadPos N 16 (Inv.W N R pending) (alignedSize r.size))
    ho.sized.pos
  unfold producerStep
  simp only [ho.findSpace_eq hpos]
  split_ifs with hfit
  · have hprepare := prepareHeader_eq ht hpos.dvdW
      (payloadPos N 16 (Inv.W N R pending) (alignedSize r.size) % N) r.size s.shared
    have hmove := movePtr_payload ht (Inv.W N R pending) r.size
    rw [ho.producerSize] at hprepare hmove
    have hsize : traceAlign (alignedSize r.size) = alignedSize r.size := by
      rw [alignedSize, traceAlign_eq, traceAlign_eq]
      omega
    have hring : ∀ e ∈ pending, e.InRing s.shared.refused
        (writeHdr s.shared.ring (Inv.W N R pending % N)
          ⟨false, r.size, payloadPos N 16 (Inv.W N R pending) (alignedSize r.size) % N⟩) := by
      intro e he
      have hdisj := hi.disjoint_new ho.sized (show nextPos N 16 (Inv.W N R pending)
        (traceAlign (alignedSize r.size)) < R + N by rw [hsize]; omega) he
      exact (hi.stored e he).frame hdisj (fun a ha => writeHdr_of_outside _ _ ha.1) id
    have haligned : traceAlign r.size % 2 ^ 32 = alignedSize r.size := rfl
    simp only [hprepare, haligned, hmove]
    refine keeps_shared (hi.withRing hring) ⟨hr, rfl, by omega, rfl, ?_⟩ rfl rfl rfl
    exact readHdr_writeHdr _ _ hr (by simp only; omega)
  · exact keeps_shared hi trivial rfl rfl rfl

/-- Publishing a small event appends it to the pending ones. -/
theorem keeps_setWrPtr (ho : h.Opened N) (hi : Inv N s.unlocked R done pending)
    {call : ProducerCall} {r : Request} {hdr wrp : ℕ} (hsmall : r.size ≤ 2 ^ 32 - 16)
    (hpc : ProducerOk N R (Inv.W N R pending) s (.setWrPtr r hdr wrp)) :
    ProducerKeeps N R done s (producerStep h call s (.setWrPtr r hdr wrp)).1
      (producerStep h call s (.setWrPtr r hdr wrp)).2 := by
  obtain ⟨hr, rfl, hfit, rfl, hread⟩ := hpc
  rw [alignedSize_of_le hsmall] at hfit hread
  unfold producerStep
  simp only [hread, alignedSize_of_le hsmall]
  let e : Event := ⟨Place.ofPos N (Inv.W N R pending) r.size,
    s.shared.ring.load (payloadPos N 16 (Inv.W N R pending) (traceAlign r.size) % N) r.size,
    false⟩
  have hin : e.InRing s.shared.refused s.shared.ring := ⟨hread, fun _ => rfl⟩
  have hinv := hi.append ho.sized (e := e) (m := s.unlocked.shared.setWrPtr
      (nextPos N 16 (Inv.W N R pending) (traceAlign r.size) % N))
    hfit hsmall rfl hin (fun _ _ => rfl) rfl rfl id hi.bug hi.outside
  refine ⟨⟨_, hinv, ⟨e, ?_, rfl, rfl, rfl⟩⟩, grows_append _ _, rfl, rfl, rfl, id⟩
  simp only [List.length_append, List.length_cons, List.length_nil, zero_add,
    Nat.add_sub_cancel, List.getElem?_concat_length]
  rfl

/-- An event in flight is pending, with its header in the ring. -/
theorem InFlight.mem_pending (hi : Inv N s.unlocked R done pending) {i hdr size : ℕ}
    (hf : InFlight s i hdr size) :
    ∃ e ∈ pending, s.accepted[i]? = some e ∧ e.committed = false ∧ e.hdr = hdr ∧
      e.size = size ∧ readHdr s.shared.ring hdr = ⟨false, size, e.ptr⟩ := by
  obtain ⟨e, he, hc, rfl, rfl⟩ := hf
  obtain ⟨j, _, hj⟩ := hi.uncommitted_index he hc
  have hmem := List.mem_of_getElem? hj
  refine ⟨e, hmem, he, hc, rfl, rfl, ?_⟩
  rw [← hc]
  exact (hi.stored e hmem).hdr

/-- A published event passes its integrity check. -/
theorem keeps_check (ho : h.Opened N) (hi : Inv N s.unlocked R done pending)
    {call : ProducerCall} {r : Request} {hdr : ℕ}
    (hf : InFlight s (s.accepted.length - 1) hdr r.size) :
    ProducerKeeps N R done s (producerStep h call s (.check r hdr)).1
      (producerStep h call s (.check r hdr)).2 := by
  obtain ⟨e, hmem, _, _, _, hsize, hread⟩ := hf.mem_pending hi
  have hcheck := hi.integrityCheck_pending ho.sized ho.producerSize hmem
  rw [hsize] at hcheck
  unfold producerStep
  simp only [hread, hcheck, Bool.not_true, Bool.false_eq_true, if_false]
  cases r with
  | push event => exact keeps_shared hi hf rfl rfl rfl
  | getWrBuffer size => exact keeps_shared hi trivial rfl rfl rfl

/-- Copying an event fills its buffer, unless the library refuses the copy. -/
theorem keeps_copy (ho : h.Opened N) (hi : Inv N s.unlocked R done pending)
    {call : ProducerCall} {event : List UInt8} {hdr : ℕ}
    (hf : InFlight s (s.accepted.length - 1) hdr event.length) :
    ProducerKeeps N R done s (producerStep h call s (.copy event hdr)).1
      (producerStep h call s (.copy event hdr)).2 := by
  obtain ⟨e, hmem, he, hc, hhdr, hsize, hread⟩ := hf.mem_pending hi
  obtain ⟨_, hptr, _⟩ := hi.inside ho.sized hmem
  have hapart := hi.self_apart ho.sized hmem
  have hle := le_traceAlign e.size
  unfold Place.Apart at hapart
  unfold producerStep
  simp only [hread]
  rw [touch_of_le (by rw [ho.producerSize]; omega), modify_eq_set he]
  obtain ⟨copied, hcopy⟩ : ∃ copied,
      h.lib.memcpyS (s.shared.ring.load e.ptr event.length) event = copied := ⟨_, rfl⟩
  have hlength : copied.length = event.length := by
    rw [← hcopy, ho.lawful.length_memcpyS, Memory.length_load]
  have hin : ({ e with bytes := event } : Event).InRing (s.shared.noteCopy event.length).refused
      (s.shared.ring.store e.ptr copied) := by
    constructor
    · change readHdr (s.shared.ring.store e.ptr copied) e.hdr = ⟨e.committed, e.size, e.ptr⟩
      rw [← (hi.stored e hmem).hdr]
      apply readHdr_congr
      intro i hi'
      rcases hapart with ha | ha
      · exact Memory.store_of_lt _ _ (by omega)
      · exact Memory.store_of_ge _ _ (by omega)
    · intro hcopied
      have hbound := (Shared.of_noteCopy hcopied).2
      change (s.shared.ring.store e.ptr copied).load e.ptr e.size = event
      rw [hsize, ← hlength, Memory.load_store_same, ← hcopy]
      exact ho.lawful.memcpyS_whole (by simp) (by simpa using hbound)
  obtain ⟨pending', hinv, _⟩ := hi.update ho.sized he hc
    (show ({ e with bytes := event } : Event).toPlace = e.toPlace from rfl) hin (by
      intro a ha
      rcases ha.2 with ha | ha
      · exact Memory.store_of_lt _ _ (by omega)
      · exact Memory.store_of_ge _ _ (by omega))
    fun hcopied => (Shared.of_noteCopy hcopied).1
  subst hcopy
  refine ⟨⟨pending', hinv, event.length, { e with bytes := event }, ?_, hc, hhdr, hsize⟩,
    grows_set he hc _, rfl, rfl, rfl, fun hcopied => (Shared.of_noteCopy hcopied).1⟩
  simp [(List.getElem?_eq_some_iff.mp he).1]

theorem keeps_checkCommit (ho : h.Opened N) (hi : Inv N s.unlocked R done pending)
    {call : ProducerCall} {i hdr size : ℕ} (hf : InFlight s i hdr size) :
    ProducerKeeps N R done s (producerStep h call s (.checkCommit i hdr)).1
      (producerStep h call s (.checkCommit i hdr)).2 := by
  obtain ⟨e, hmem, _, _, hhdr, hsize, hread⟩ := hf.mem_pending hi
  obtain ⟨hinside, _, _⟩ := hi.inside ho.sized hmem
  have hcheck := hi.integrityCheck_pending ho.sized ho.producerSize hmem
  rw [hsize] at hcheck
  have htouch : s.shared.touch h.producer hdr traceEventHdrSize = s.shared :=
    touch_of_le (by rw [ho.producerSize, ← hhdr]; exact hinside)
  unfold producerStep
  simp only [htouch, hread, hcheck, Bool.not_true, Bool.false_eq_true, if_false]
  exact keeps_shared hi ⟨size, hf⟩ rfl rfl rfl

/-- Setting the `ready` bit commits the event. -/
theorem keeps_setReady (ho : h.Opened N) (hi : Inv N s.unlocked R done pending)
    {call : ProducerCall} {i hdr size : ℕ} (hf : InFlight s i hdr size) :
    ProducerKeeps N R done s (producerStep h call s (.setReady i hdr)).1
      (producerStep h call s (.setReady i hdr)).2 := by
  obtain ⟨e, hmem, he, hc, rfl, _, _⟩ := hf.mem_pending hi
  unfold producerStep
  simp only [modify_eq_set he]
  obtain ⟨pending', hinv, _⟩ := hi.update ho.sized he hc
    (show ({ e with committed := true } : Event).toPlace = e.toPlace from rfl)
    (hi.commit_inRing ho.sized hmem) (by
      intro a ha
      exact setReady_of_ne _ _ (by have := ha.1; omega)) id
  exact ⟨⟨pending', hinv, trivial⟩, grows_set he hc _, rfl, rfl, rfl, id⟩

theorem keeps_idle (ho : h.Opened N) (hi : Inv N s.unlocked R done pending)
    {call : ProducerCall} (hcall : (Turn.producer call).Fits) :
    ProducerKeeps N R done s (producerStep h call s .idle).1 (producerStep h call s .idle).2 := by
  have hvalid : isTraceValid s.shared = true := hi.valid
  cases call with
  | request r =>
    unfold producerStep
    simp only [hvalid, ho.producerMode]
    exact keeps_shared hi hcall rfl rfl rfl
  | fill i off bytes => exact keeps_fill ho hi i off bytes
  | commitWrBuffer i =>
    simp only [producerStep, hvalid, ho.producerMode]
    cases he : s.accepted[i]? with
    | none =>
      refine keeps_shared hi ?_ rfl rfl rfl
      exact trivial
    | some e =>
      simp only
      cases hc : e.committed with
      | false =>
        refine keeps_shared hi ?_ rfl rfl rfl
        exact ⟨e.size, e, he, hc, rfl, rfl⟩
      | true =>
        refine keeps_shared hi ?_ rfl rfl rfl
        exact trivial
  | close =>
    unfold producerStep
    simp only [hvalid, ho.producerMode]
    refine keeps_shared hi ?_ rfl rfl rfl
    exact trivial

/-- Every turn but the close and the publishing of an oversized event. -/
theorem producerStep_keeps (ho : h.Opened N) (hi : Inv N s.unlocked R done pending)
    {call : ProducerCall} (hcall : (Turn.producer call).Fits) {pc : ProducerPc}
    (hpc : ProducerOk N R (Inv.W N R pending) s pc) (hclose : pc ≠ .setClosed)
    (hsmall : ∀ r hdr wrp, pc = .setWrPtr r hdr wrp → r.size ≤ 2 ^ 32 - 16) :
    ProducerKeeps N R done s (producerStep h call s pc).1 (producerStep h call s pc).2 := by
  cases pc with
  | idle => exact keeps_idle ho hi hcall
  | lockWr r => exact keeps_lockWr hi hpc
  | readWrPtr r =>
    refine keeps_shared hi ?_ rfl rfl rfl
    exact ⟨hpc, hi.pointers.wrPtr⟩
  | readRdPtr r wrp =>
    refine keeps_shared hi ?_ rfl rfl rfl
    exact ⟨hpc.1, hpc.2, R, hi.pointers.toPositions, le_rfl, hi.pointers.rdPtr⟩
  | prepare r wrp rdp => exact keeps_prepare ho hi hpc
  | setWrPtr r hdr wrp => exact keeps_setWrPtr ho hi (hsmall r hdr wrp rfl) hpc
  | unlockWr r result =>
    cases result with
    | none =>
      refine keeps_shared hi ?_ rfl rfl rfl
      exact trivial
    | some hdr =>
      refine keeps_shared hi ?_ rfl rfl rfl
      exact hpc
  | incLost =>
    refine keeps_shared (hi.addLost 1) ?_ rfl rfl rfl
    exact trivial
  | check r hdr => exact keeps_check ho hi hpc
  | copy event hdr => exact keeps_copy ho hi hpc
  | checkCommit i hdr =>
    obtain ⟨size, hf⟩ := hpc
    exact keeps_checkCommit ho hi hf
  | setReady i hdr =>
    obtain ⟨size, hf⟩ := hpc
    exact keeps_setReady ho hi hf
  | setClosed => exact absurd rfl hclose
  | closed =>
    refine keeps_shared hi ?_ rfl rfl rfl
    exact trivial

/-- Publishing an oversized event leaves a header that will fail its integrity check. -/
theorem setWrPtr_oversized (ho : h.Opened N) {V : ℕ} (call : ProducerCall) {r : Request}
    {hdr wrp : ℕ} (hover : 2 ^ 32 - 16 < r.size)
    (hpc : ProducerOk N R V s (.setWrPtr r hdr wrp)) :
    (producerStep h call s (.setWrPtr r hdr wrp)).2 = .unlockWr r (some hdr) ∧
      integrityCheck h.producer (readHdr s.shared.ring hdr).dataPtr
        (readHdr s.shared.ring hdr).dataSize = false := by
  obtain ⟨hr, rfl, _, _, hread⟩ := hpc
  refine ⟨rfl, ?_⟩
  rw [hread]
  exact integrityCheck_of_gt ho (Nat.mod_lt _ ho.sized.pos) hover hr

/-- The consumer's turns leave the producer's local variables right. -/
theorem ProducerOk.mono {V R' : ℕ} {s' : Session} {pc : ProducerPc}
    (hpc : ProducerOk N R V s pc) (hR : R ≤ R') (hring : s'.shared.ring = s.shared.ring)
    (haccepted : s'.accepted = s.accepted) : ProducerOk N R' V s' pc := by
  cases pc with
  | prepare r wrp rdp =>
    obtain ⟨hr, hwrp, R₀, hpos, hR₀, hrdp⟩ := hpc
    exact ⟨hr, hwrp, R₀, hpos, by omega, hrdp⟩
  | setWrPtr r hdr wrp =>
    obtain ⟨hr, hhdr, hfit, hwrp, hread⟩ := hpc
    exact ⟨hr, hhdr, by omega, hwrp, by rw [hring]; exact hread⟩
  | unlockWr r result =>
    cases result with
    | none => trivial
    | some hdr =>
      unfold ProducerOk InFlight at hpc ⊢
      rw [haccepted]
      exact hpc
  | check r hdr =>
    unfold ProducerOk InFlight at hpc ⊢
    rw [haccepted]
    exact hpc
  | copy event hdr =>
    unfold ProducerOk InFlight at hpc ⊢
    rw [haccepted]
    exact hpc
  | checkCommit i hdr =>
    unfold ProducerOk InFlight at hpc ⊢
    rw [haccepted]
    exact hpc
  | setReady i hdr =>
    unfold ProducerOk InFlight at hpc ⊢
    rw [haccepted]
    exact hpc
  | _ => exact hpc

end Keeps

end Octf.Trace
