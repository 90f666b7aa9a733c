import Octf.Trace.ConsumerTurns

/-! The end of the trace over all interleavings. As long as the producer closes in order,
`-EBADF` is returned only when every committed event was handed over; a close behind an
uncommitted reservation, or between the consumer's look at the pointers and at the flag,
breaks that. -/
namespace Octf.Trace
open Foundation Foundation.RecordRing

/-- Both sides are where their local variables say. -/
structure Sound (N R : ℕ) (done pending : List Event) (x : State) : Prop where
  inv : Inv N x.session.unlocked R done pending
  producer : ProducerOk N R (Inv.W N R pending) x.session x.producer
  consumer : ConsumerOk N R x.session pending x.consumer
  closed : x.session.shared.phdr.closed ≠ 0 → x.producer = .closed ∧ CommitsInOrder pending

/-- The consumer has not been told that the trace ended. -/
def NotEnded : ConsumerPc → Prop
  | .idle answer | .unlockRd answer => answer ≠ some .EBADF
  | _ => True

/-- The producer has published an oversized event, and the trace is or will be invalid. -/
def Spoiling (h : Handles) (s : Session) : ProducerPc → Prop
  | .idle | .closed => isTraceValid s.shared = false
  | .unlockWr _ (some hdr) | .check _ hdr =>
    integrityCheck h.producer (readHdr s.shared.ring hdr).dataPtr
      (readHdr s.shared.ring hdr).dataSize = false
  | _ => False

structure Spoiled (h : Handles) (x : State) : Prop where
  producer : Spoiling h x.session x.producer
  consumer : NotEnded x.consumer
  closed : x.session.shared.phdr.closed = 0

/-- The invariant of all interleavings. -/
def Traced (h : Handles) (N : ℕ) (x : State) : Prop :=
  (∃ R done pending, Sound N R done pending x) ∨ Spoiled h x

section Turns

variable {h : Handles} {N R : ℕ} {done pending : List Event} {x : State}

/-- On an open trace no answer was the end of it. -/
theorem ConsumerOk.notEnded {s : Session} {pc : ConsumerPc} (hpc : ConsumerOk N R s pending pc)
    (hclosed : s.shared.phdr.closed = 0) : NotEnded pc := by
  cases pc with
  | idle answer => exact fun hend => (hpc.2.1 hend).1 hclosed
  | unlockRd answer => exact fun hend => (hpc.2 hend).1 hclosed
  | _ => trivial

/-- A committed first event stays the first, and pending events stay pending. -/
theorem head_grows {s s' : Session} {pending' : List Event} (hi : Inv N s R done pending)
    (hi' : Inv N s' R done pending') (hgrows : Grows s.accepted s'.accepted) :
    (∀ hdr e, Ready pending hdr e → Ready pending' hdr e) ∧ (pending ≠ [] → pending' ≠ []) := by
  constructor
  · rintro hdr e ⟨hhead, hc, hhdr⟩
    refine ⟨?_, hc, hhdr⟩
    have hat : s.accepted[done.length]? = some e := by
      rw [hi.split, List.getElem?_append_right le_rfl, Nat.sub_self, ← List.head?_eq_getElem?]
      exact hhead
    have hat' := hgrows.committed _ _ hat hc
    rw [hi'.split, List.getElem?_append_right le_rfl, Nat.sub_self,
      ← List.head?_eq_getElem?] at hat'
    exact hat'
  · intro hne hnil
    have hlen := hgrows.length
    rw [hi.split, hi'.split, hnil, List.length_append, List.append_nil] at hlen
    exact hne (List.length_eq_zero_iff.mp (by omega))

/-- The producer's turns on an open trace leave the consumer's local variables right. -/
theorem ConsumerOk.mono {s s' : Session} {pending' : List Event} {pc : ConsumerPc}
    (hpc : ConsumerOk N R s pending pc)
    (hready : ∀ hdr e, Ready pending hdr e → Ready pending' hdr e)
    (hne : pending ≠ [] → pending' ≠ []) (hchdr : s'.shared.chdr = s.shared.chdr)
    (hheld : s'.held = s.held) (hclosed : s.shared.phdr.closed = 0)
    (hclosed' : s'.shared.phdr.closed = 0)
    (hrefused : s'.shared.refused = false → s.shared.refused = false) :
      ConsumerOk N R s' pending' pc := by
  have hlock : lockOf s' = lockOf s := by rw [lockOf, hheld, lockOf]
  have hlocked : Locked s → Locked s' := by
    unfold Locked
    rw [hheld, hchdr]
    exact id
  cases pc with
  | idle answer =>
    obtain ⟨hrd, hanswer, hnone⟩ := hpc
    refine ⟨by rw [hchdr, hlock]; exact hrd, fun hend => ?_, by rw [hheld]; exact hnone⟩
    exact absurd hclosed (hanswer hend).1
  | lockRd r =>
    have hrd : s.shared.chdr.rdLock = lockOf s := hpc
    change s'.shared.chdr.rdLock = lockOf s'
    rw [hchdr, hlock, hrd]
  | readRdPtr r => exact hlocked hpc
  | readWrPtr r rdp => exact ⟨hlocked hpc.1, hpc.2⟩
  | readReady r rdp => exact ⟨hlocked hpc.1, hpc.2.1, hne hpc.2.2⟩
  | readClosed => exact ⟨hlocked hpc.1, fun hend => absurd hclosed' hend⟩
  | take r hdr =>
    obtain ⟨hl, e, he⟩ := hpc
    exact ⟨hlocked hl, e, hready hdr e he⟩
  | moveRdPtr hdr event =>
    obtain ⟨hl, e, he, hsize, hbytes⟩ := hpc
    exact ⟨hlocked hl, e, hready hdr e he, hsize, fun hcopied => hbytes (hrefused hcopied)⟩
  | unlockRd answer =>
    obtain ⟨hnone, hanswer⟩ := hpc
    exact ⟨by rw [hheld]; exact hnone, fun hend => absurd hclosed (hanswer hend).1⟩
  | release hdr => exact hheld.trans hpc

/-- The pending events of the invariant are those of the session. -/
theorem Sound.pending_eq (hx : Sound N R done pending x) : x.session.pending = pending :=
  hx.inv.pending_eq

/-- Closing in order: the consumer cannot be misled by what it has read already. -/
theorem Sound.setClosed (hx : Sound N R done pending x) (hpc : x.producer = .setClosed)
    {call : ProducerCall} (horder : ClosesInOrder (.producer call) x) :
    Sound N R done pending (x.step h (.producer call)) := by
  have hopen : x.session.shared.phdr.closed = 0 := by
    by_contra hne
    rw [(hx.closed hne).1] at hpc
    cases hpc
  simp only [ClosesInOrder, hpc, ProducerPc.closing, true_implies, hx.pending_eq] at horder
  have hinv := hx.inv
  have hconsumer := hx.consumer
  simp only [State.step, hpc, producerStep]
  refine ⟨⟨hinv.split, ⟨hinv.pointers.toPositions, hinv.pointers.rdPtr, hinv.pointers.wrPtr⟩,
    hinv.laid, hinv.stored, hinv.small, hinv.doneCommitted, hinv.reading, hinv.valid,
    hinv.wrLock, hinv.bug, hinv.outside⟩, trivial, ?_, fun _ => ⟨rfl, horder.1⟩⟩
  cases hc : x.consumer with
  | idle answer =>
    rw [hc] at hconsumer
    exact ⟨hconsumer.1, fun hend => absurd hopen (hconsumer.2.1 hend).1, hconsumer.2.2⟩
  | readClosed =>
    rw [hc] at hconsumer
    exact ⟨hconsumer.1, fun _ => horder.2 (by rw [hc]; rfl)⟩
  | unlockRd answer =>
    rw [hc] at hconsumer
    exact ⟨hconsumer.1, fun hend => absurd hopen (hconsumer.2 hend).1⟩
  | _ =>
    rw [hc] at hconsumer
    exact hconsumer

/-- A turn of the producer. -/
theorem Sound.producerTurn (ho : h.Opened N) (hx : Sound N R done pending x)
    {call : ProducerCall} (hcall : (Turn.producer call).Fits)
    (horder : ClosesInOrder (.producer call) x) : Traced h N (x.step h (.producer call)) := by
  by_cases hclose : x.producer = .setClosed
  · exact .inl ⟨R, done, pending, hx.setClosed hclose horder⟩
  by_cases hgone : x.producer = .closed
  · left
    refine ⟨R, done, pending, ?_⟩
    simp only [State.step, hgone, producerStep]
    rw [← hgone]
    exact hx
  have hopen : x.session.shared.phdr.closed = 0 := by
    by_contra hne
    exact hgone (hx.closed hne).1
  by_cases hover : ∃ r hdr wrp, x.producer = .setWrPtr r hdr wrp ∧ 2 ^ 32 - 16 < r.size
  · obtain ⟨r, hdr, wrp, hpc, hsize⟩ := hover
    have hproducer := hx.producer
    rw [hpc] at hproducer
    obtain ⟨hnext, hcheck⟩ := setWrPtr_oversized ho call hsize hproducer
    right
    refine ⟨?_, hx.consumer.notEnded hopen, ?_⟩
    · simp only [State.step, hpc, hnext]
      exact hcheck
    · simp only [State.step, hpc]
      exact hopen
  · have hkeeps := producerStep_keeps ho hx.inv hcall hx.producer hclose fun r hdr wrp hpc => by
      by_contra hlt
      exact hover ⟨r, hdr, wrp, hpc, not_le.mp hlt⟩
    obtain ⟨⟨pending', hinv, hproducer⟩, hgrows, hchdr, hheld, hclosed, hrefused⟩ := hkeeps
    obtain ⟨hready, hne⟩ := head_grows hx.inv hinv hgrows
    left
    exact ⟨R, done, pending', hinv, hproducer,
      hx.consumer.mono hready hne hchdr hheld hopen (hclosed.trans hopen) hrefused,
      fun hc => absurd (hclosed.trans hopen) hc⟩

/-- A turn of the consumer. -/
theorem Sound.consumerTurn (ho : h.Opened N) (hx : Sound N R done pending x)
    (call : ConsumerCall) : Traced h N (x.step h (.consumer call)) := by
  have hkeeps := consumerStep_keeps ho hx.inv (fun hc => (hx.closed hc).2) call hx.consumer
  obtain ⟨⟨R', done', pending', hinv, hR, hW, hsuffix, hconsumer⟩, hring, haccepted, hclosed⟩ :=
    hkeeps
  left
  refine ⟨R', done', pending', hinv, ?_, hconsumer, fun hc => ?_⟩
  · rw [hW]
    exact hx.producer.mono hR hring haccepted
  · simp only [State.step] at hc
    rw [hclosed] at hc
    exact ⟨(hx.closed hc).1, (hx.closed hc).2.sublist hsuffix.sublist⟩

/-! ### A spoiled trace -/

/-- The consumer writes nothing into the ring, and of the producer header at most the
magic. -/
theorem consumerStep_frame (call : ConsumerCall) (s : Session) (pc : ConsumerPc) :
    (consumerStep h call s pc).1.shared.ring = s.shared.ring ∧
      ((consumerStep h call s pc).1.shared.phdr = s.shared.phdr ∨
        (consumerStep h call s pc).1.shared.phdr = { s.shared.phdr with magic := 0 }) := by
  cases pc with
  | idle answer =>
    cases call with
    | read r =>
      simp only [consumerStep]
      split_ifs <;> exact ⟨rfl, .inl rfl⟩
    | releaseRdBuffer =>
      simp only [consumerStep]
      cases s.held with
      | none => exact ⟨rfl, .inl rfl⟩
      | some hdr =>
        simp only
        split_ifs
        · exact ⟨rfl, .inl rfl⟩
        · exact ⟨rfl, .inr rfl⟩
        · exact ⟨rfl, .inl rfl⟩
  | lockRd r =>
    simp only [consumerStep, tryLockRd]
    split_ifs <;> exact ⟨rfl, .inl rfl⟩
  | readWrPtr r rdp =>
    simp only [consumerStep]
    split_ifs <;> exact ⟨rfl, .inl rfl⟩
  | readReady r rdp =>
    simp only [consumerStep]
    split_ifs <;> exact ⟨rfl, .inl rfl⟩
  | take r hdr =>
    cases r with
    | pop buffer =>
      simp only [consumerStep]
      split_ifs <;> exact ⟨rfl, .inl rfl⟩
    | getRdBuffer =>
      simp only [consumerStep]
      split_ifs <;> exact ⟨rfl, .inl rfl⟩
  | _ => exact ⟨rfl, .inl rfl⟩

/-- As long as the trace is not closed, its end is not answered. -/
theorem consumerStep_notEnded {call : ConsumerCall} {s : Session} {pc : ConsumerPc}
    (hpc : NotEnded pc) (hopen : s.shared.phdr.closed = 0) :
    NotEnded (consumerStep h call s pc).2 := by
  cases pc with
  | idle answer =>
    cases call with
    | read r =>
      simp only [consumerStep]
      split_ifs <;> simp [NotEnded]
    | releaseRdBuffer =>
      simp only [consumerStep]
      cases s.held with
      | none => simp [NotEnded]
      | some hdr =>
        simp only
        split_ifs <;> simp [NotEnded]
  | lockRd r =>
    simp only [consumerStep, tryLockRd]
    split_ifs <;> simp [NotEnded]
  | readWrPtr r rdp =>
    simp only [consumerStep]
    split_ifs <;> simp [NotEnded]
  | readReady r rdp =>
    simp only [consumerStep]
    split_ifs <;> simp [NotEnded]
  | readClosed =>
    simp [consumerStep, noEvent, hopen, NotEnded]
  | take r hdr =>
    cases r with
    | pop buffer =>
      simp only [consumerStep]
      split_ifs <;> simp [NotEnded]
    | getRdBuffer =>
      simp only [consumerStep]
      split_ifs <;> simp [NotEnded]
  | readRdPtr r => trivial
  | moveRdPtr hdr event => simp [consumerStep, NotEnded]
  | unlockRd answer => exact hpc
  | release hdr => simp [consumerStep, NotEnded]

theorem Spoiled.consumerTurn (hx : Spoiled h x) (call : ConsumerCall) :
    Spoiled h (x.step h (.consumer call)) := by
  obtain ⟨hring, hphdr⟩ := consumerStep_frame (h := h) call x.session x.consumer
  have hclosed : (x.step h (.consumer call)).session.shared.phdr.closed = 0 := by
    rw [← hx.closed]
    rcases hphdr with heq | heq <;>
      exact (congrArg TraceProducerHdr.closed heq).trans rfl
  have hinvalid : isTraceValid x.session.shared = false →
      isTraceValid (x.step h (.consumer call)).session.shared = false := by
    intro hbad
    simp only [isTraceValid] at hbad ⊢
    rcases hphdr with heq | heq
    · rw [show (x.step h (.consumer call)).session.shared.phdr = _ from heq]
      exact hbad
    · rw [show (x.step h (.consumer call)).session.shared.phdr = _ from heq]
      rfl
  refine ⟨?_, consumerStep_notEnded hx.consumer hx.closed, hclosed⟩
  have hproducer := hx.producer
  have hpc : (x.step h (.consumer call)).producer = x.producer := rfl
  rw [hpc]
  cases hp : x.producer with
  | idle =>
    rw [hp] at hproducer
    exact hinvalid hproducer
  | closed =>
    rw [hp] at hproducer
    exact hinvalid hproducer
  | unlockWr r result =>
    rw [hp] at hproducer
    cases result with
    | none => exact hproducer
    | some hdr =>
      unfold Spoiling at hproducer ⊢
      rw [show (x.step h (.consumer call)).session.shared.ring = _ from hring]
      exact hproducer
  | check r hdr =>
    rw [hp] at hproducer
    unfold Spoiling at hproducer ⊢
    rw [show (x.step h (.consumer call)).session.shared.ring = _ from hring]
    exact hproducer
  | _ =>
    rw [hp] at hproducer
    exact hproducer

/-- On an invalid trace the producer does nothing but fill its buffers. -/
theorem Spoiled.idleTurn (hx : Spoiled h x) (hpc : x.producer = .idle) (call : ProducerCall) :
    Spoiled h (x.step h (.producer call)) := by
  have hinvalid := hx.producer
  rw [hpc] at hinvalid
  change isTraceValid x.session.shared = false at hinvalid
  cases call with
  | request r =>
    simp only [State.step, hpc, producerStep, hinvalid]
    exact ⟨hinvalid, hx.consumer, hx.closed⟩
  | fill i off bytes =>
    have hphdr : (x.session.fill h i off bytes).shared.phdr = x.session.shared.phdr := by
      unfold Session.fill
      cases x.session.accepted[i]? with
      | none => rfl
      | some e =>
        simp only
        split_ifs <;> rfl
    simp only [State.step, hpc, producerStep]
    refine ⟨?_, hx.consumer, by rw [hphdr]; exact hx.closed⟩
    simp only [Spoiling, isTraceValid, hphdr]
    exact hinvalid
  | commitWrBuffer i =>
    simp only [State.step, hpc, producerStep, hinvalid, Bool.not_false, Bool.true_or, if_true]
    cases x.session.accepted[i]? with
    | none => exact ⟨hinvalid, hx.consumer, hx.closed⟩
    | some e =>
      simp only
      split_ifs <;> exact ⟨hinvalid, hx.consumer, hx.closed⟩
  | close =>
    simp only [State.step, hpc, producerStep, hinvalid, Bool.false_eq_true, if_false]
    split_ifs <;> exact ⟨hinvalid, hx.consumer, hx.closed⟩

theorem Spoiled.producerTurn (hx : Spoiled h x) (call : ProducerCall) :
    Spoiled h (x.step h (.producer call)) := by
  have hproducer := hx.producer
  cases hpc : x.producer with
  | idle => exact hx.idleTurn hpc call
  | closed =>
    rw [hpc] at hproducer
    simp only [State.step, hpc, producerStep]
    exact ⟨hproducer, hx.consumer, hx.closed⟩
  | unlockWr r result =>
    rw [hpc] at hproducer
    cases result with
    | none => exact absurd hproducer id
    | some hdr =>
      simp only [State.step, hpc, producerStep]
      exact ⟨hproducer, hx.consumer, hx.closed⟩
  | check r hdr =>
    rw [hpc] at hproducer
    change integrityCheck _ _ _ = false at hproducer
    simp only [State.step, hpc, producerStep, hproducer, Bool.not_false, if_true]
    exact ⟨rfl, hx.consumer, hx.closed⟩
  | _ =>
    rw [hpc] at hproducer
    exact absurd hproducer id

/-- Every turn keeps the invariant of all interleavings. -/
theorem Traced.step (ho : h.Opened N) (hx : Traced h N x) {turn : Turn} (hturn : turn.Fits)
    (horder : ClosesInOrder turn x) : Traced h N (x.step h turn) := by
  rcases hx with ⟨R, done, pending, hx⟩ | hx
  · cases turn with
    | producer call => exact hx.producerTurn ho hturn horder
    | consumer call => exact hx.consumerTurn ho call
  · cases turn with
    | producer call => exact .inr (hx.producerTurn call)
    | consumer call => exact .inr (hx.consumerTurn call)

/-- What the invariant says of a consumer that was told the end of the trace. -/
theorem Traced.endOfTraceSound (hx : Traced h N x) : EndOfTraceSound x := by
  intro hend
  rcases hx with ⟨R, done, pending, hx⟩ | hx
  · have hconsumer := hx.consumer
    rw [hend] at hconsumer
    obtain ⟨_, hanswer, hnone⟩ := hconsumer
    obtain ⟨hclosed, hpending⟩ := hanswer rfl
    have hgiven : Handed x.session.shared.refused x.session.given done :=
      hx.inv.given_of_not_held (hnone rfl)
    refine ⟨hclosed, by rw [hx.pending_eq]; exact hpending, ?_⟩
    have hsplit : x.session.accepted = done ++ pending := hx.inv.split
    have hdone : done.filter Event.committed = done :=
      List.filter_eq_self.mpr hx.inv.doneCommitted
    have hrest : pending.filter Event.committed = [] :=
      List.filter_eq_nil_iff.mpr fun e he => by simp [hpending e he]
    rw [hsplit, List.filter_append, hdone, hrest, List.append_nil]
    exact hgiven
  · have hconsumer := hx.consumer
    rw [hend] at hconsumer
    exact absurd rfl hconsumer

end Turns

/-- An opened session starts with both sides between calls. -/
theorem traced_start {lib : SafeString} (hlib : lib.Lawful) {heap : Bool} {mempoolSize : ℕ}
    {hdr : Bool} {m : Shared} {h : Handles} {s : Session} (h32 : mempoolSize < 2 ^ 32)
    (hempty : OpensEmpty mempoolSize hdr m)
    (hopen : openSession lib heap mempoolSize hdr m = .ok (h, s)) :
    Traced h h.producer.ringSize (State.start s) := by
  obtain ⟨_, hi⟩ := openSession_inv hlib h32 hempty hopen
  obtain ⟨N, _, _, rfl, rfl⟩ := openSession_ok hlib h32 hempty hopen
  left
  exact ⟨0, [], [], hi, trivial, ⟨rfl, answerOk_of_ne (by decide), by simp⟩,
    fun hc => absurd rfl hc⟩

/-- In every run from an open that leaves empty headers and whose closes are in order, the end of
the trace is answered only when every committed event was handed over. -/
theorem endOfTrace_sound {lib : SafeString} (hlib : lib.Lawful) {heap : Bool} {mempoolSize : ℕ}
    {hdr : Bool} {m : Shared} {h : Handles} {s : Session} (h32 : mempoolSize < 2 ^ 32)
    (hempty : OpensEmpty mempoolSize hdr m)
    (hopen : openSession lib heap mempoolSize hdr m = .ok (h, s)) {turns : List Turn}
    (hturns : ∀ turn ∈ turns, turn.Fits)
    (horder : Meets (State.step h) ClosesInOrder turns (State.start s)) :
    EndOfTraceSound (run (State.step h) turns (State.start s)) := by
  obtain ⟨ho, _⟩ := openSession_inv hlib h32 hempty hopen
  have hrun : Traced h h.producer.ringSize (run (State.step h) turns (State.start s)) :=
    run_invariant (C := fun (turn : Turn) (x : State) => turn.Fits ∧ ClosesInOrder turn x)
      (P := Traced h h.producer.ringSize)
      (fun turn x hturn hx => hx.step ho hturn.1 hturn.2)
      (horder.and_forall hturns) (traced_start hlib h32 hempty hopen)
  exact hrun.endOfTraceSound

/-- `n` turns of the producer, or of the consumer, with one call to begin. -/
def producing (n : ℕ) (call : ProducerCall) : List Turn := List.replicate n (.producer call)
def consuming (n : ℕ) (call : ConsumerCall) : List Turn := List.replicate n (.consumer call)

theorem endOfTrace_sound_small : EndOfTraceSound (run (State.step smallHandles)
    (producing 10 (.request (.push [1])) ++ producing 2 .close ++
      consuming 7 (.read (.pop [0])) ++ consuming 7 (.read (.pop [0])))
        (State.start smallSession)) :=
  endOfTrace_sound SafeString.plain_lawful (by decide) (.inl (by decide)) openSession_small
    (by simp [producing, consuming, Turn.Fits, Request.size]) (by decide)

/-- A push and a close between the consumer's look at the pointers and at the flag, and a
close behind an uncommitted reservation: both times the end is answered with a committed
event in the ring. -/
theorem endOfTrace_unsound :
    ¬ EndOfTraceSound (run (State.step smallHandles)
      (consuming 4 (.read (.pop [0])) ++ producing 10 (.request (.push [1])) ++
        producing 2 .close ++ consuming 2 (.read (.pop [0]))) (State.start smallSession)) ∧
    ¬ EndOfTraceSound (run (State.step smallHandles)
      (producing 8 (.request (.getWrBuffer 1)) ++ producing 8 (.request (.getWrBuffer 1)) ++
        producing 3 (.commitWrBuffer 1) ++ producing 2 .close ++
          consuming 7 (.read (.pop [0]))) (State.start smallSession)) := by
  constructor
  · intro hsound
    have hpending := (hsound rfl).pending
    exact absurd hpending (by decide)
  · intro hsound
    have hpending := (hsound rfl).pending
    exact absurd hpending (by decide)

end Octf.Trace
