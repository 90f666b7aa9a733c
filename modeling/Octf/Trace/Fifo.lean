import Octf.Trace.Runs

/-! The ring as a queue: what the consumer is given is a prefix of what was accepted, in
allocation order, and the next event is there as soon as it is committed. -/
namespace Octf.Trace
open Foundation

/-- What the two sides see of a queue. -/
structure Fifo (h : Handles) (s : Session) : Prop where
  /-- in allocation order, each once, with its size and bytes -/
  given : s.given = (s.accepted.take s.given.length).map Event.content
  /-- only after its commit -/
  givenCommitted : ∀ e ∈ s.accepted.take s.given.length, e.committed = true
  /-- an operation hands out nothing, or the next event and that already committed -/
  handsOut : ∀ op : Op, op.EventInRange → CopiesWithin h op s →
    (Session.step h op s).given = s.given ∨ ∃ e, s.next = some e ∧ e.committed = true ∧
      (Session.step h op s).given = s.given ++ [e.content]
  /-- a committed event can be popped when its turn has come -/
  popped : ∀ e, s.next = some e → e.committed = true → s.held = none →
    ∀ buffer : List UInt8, e.size ≤ buffer.length → buffer.length ≤ rsizeMaxMem →
      (s.pop h buffer).given = s.given ++ [e.content]
  /-- and it can be read in place -/
  exposed : ∀ e, s.next = some e → e.committed = true → s.held = none →
    (s.getRdBuffer h).given = s.given ++ [e.content]
  /-- an exposed buffer keeps showing its event -/
  shown : ∀ hdr, s.held = some hdr → ∃ e, s.accepted[s.given.length - 1]? = some e ∧
    readHdr s.shared.ring hdr = ⟨true, e.size, e.ptr⟩ ∧
      s.shared.ring.load e.ptr e.size = e.bytes
  /-- until its release, which always succeeds -/
  released : (s.releaseRdBuffer h).held = none
  /-- every reservation can be committed, in any order -/
  committable : ∀ i e, s.accepted[i]? = some e → e.committed = false →
    (s.commitWrBuffer h i).accepted = s.accepted.set i { e with committed := true }

namespace Inv

variable {h : Handles} {N R : ℕ} {s : Session} {done pending : List Event}

/-- The events the consumer was given, cut off the accepted ones. -/
theorem given_prefix (hi : Inv N s R done pending) (hcopied : s.shared.refused = false) :
    s.given = (s.accepted.take s.given.length).map Event.content ∧
      ∀ e ∈ s.accepted.take s.given.length, e.committed = true := by
  have hread := hi.reading
  unfold Reading at hread
  cases hheld : s.held with
  | none =>
    simp only [hheld] at hread
    rw [hread.2.contents hcopied, hi.split, List.length_map, List.take_left']
    · exact ⟨rfl, hi.doneCommitted⟩
    · rfl
  | some hdr =>
    simp only [hheld] at hread
    obtain ⟨_, e, es, rfl, _, hc, hgiven⟩ := hread
    have hsplit : s.accepted = (done ++ [e]) ++ es := by rw [hi.split]; simp
    rw [hgiven.contents hcopied, hsplit, List.length_map, List.take_left' rfl]
    refine ⟨rfl, fun f hf => ?_⟩
    rcases List.mem_append.mp hf with hf | hf
    · exact hi.doneCommitted f hf
    · rw [List.mem_singleton.mp hf]
      exact hc

theorem cons_of_next (hi : Inv N s R done pending) (hheld : s.held = none) {e : Event}
    (hnext : s.next = some e) : ∃ es, pending = e :: es := by
  rw [hi.next_eq hheld] at hnext
  exact List.head?_eq_some_iff.mp hnext

/-- Within the bound of the library the bytes of a popped event are its own. -/
theorem popped_content (ho : h.Opened N) {e : Event} {es : List Event}
    (hi : Inv N s R done (e :: es)) (hcopied : s.shared.refused = false) {buffer : List UInt8}
    (hfit : e.size ≤ buffer.length) (hbound : buffer.length ≤ rsizeMaxMem) :
    (e.size, popped h buffer s.shared e) = e.content := by
  rw [hi.popped_eq ho List.mem_cons_self hfit (by simpa [Shared.noteCopy, hcopied] using hbound)]
  rfl

theorem handsOut_pop (ho : h.Opened N) (hi : Inv N s R done pending)
    (hcopied : s.shared.refused = false) {buffer : List UInt8}
    (hbound : CopiesWithin h (.pop buffer) s) : (s.pop h buffer).given = s.given ∨
      ∃ e, s.next = some e ∧ e.committed = true ∧
        (s.pop h buffer).given = s.given ++ [e.content] := by
  rcases hi.pop_eq ho buffer with ⟨hheld, e, es, rfl, hc, hfit, heq⟩ | ⟨heq, _⟩
  · right
    have hnext : s.next = some e := by rw [hi.next_eq hheld, List.head?_cons]
    have hle : buffer.length ≤ rsizeMaxMem := hbound ⟨hheld, e, hnext, hc, hfit⟩
    exact ⟨e, hnext, hc, by rw [heq, hi.popped_content ho hcopied hfit hle]⟩
  · left
    rw [heq]

/-- The bytes shown in place are those of the event. -/
theorem shown_content {e : Event} {es : List Event} (hi : Inv N s R done (e :: es))
    (hcopied : s.shared.refused = false) :
    (e.size, s.shared.ring.load e.ptr e.size) = e.content := by
  rw [(hi.stored e List.mem_cons_self).bytes hcopied]
  rfl

theorem handsOut_getRdBuffer (ho : h.Opened N) (hi : Inv N s R done pending)
    (hcopied : s.shared.refused = false) :
    (s.getRdBuffer h).given = s.given ∨
      ∃ e, s.next = some e ∧ e.committed = true ∧
        (s.getRdBuffer h).given = s.given ++ [e.content] := by
  rcases hi.getRdBuffer_eq ho with ⟨hheld, e, es, rfl, hc, heq⟩ | ⟨heq, _⟩
  · right
    refine ⟨e, ?_, hc, by rw [heq, hi.shown_content hcopied]⟩
    rw [hi.next_eq hheld, List.head?_cons]
  · left
    rw [heq]

/-- The operations of the producer, and the release, hand out nothing. -/
theorem given_push (event : List UInt8) : (s.push h event).given = s.given := by
  unfold Session.push
  split <;> rfl

theorem given_getWrBuffer (size : ℕ) : (s.getWrBuffer h size).given = s.given := by
  unfold Session.getWrBuffer
  split <;> rfl

theorem given_fill (i off : ℕ) (bytes : List UInt8) :
    (s.fill h i off bytes).given = s.given := by
  unfold Session.fill
  cases s.accepted[i]? with
  | none => rfl
  | some e =>
    simp only
    split_ifs <;> rfl

theorem given_commitWrBuffer (i : ℕ) : (s.commitWrBuffer h i).given = s.given := by
  unfold Session.commitWrBuffer
  cases s.accepted[i]? with
  | none => rfl
  | some e =>
    simp only
    split_ifs
    · split <;> rfl
    · rfl

theorem given_releaseRdBuffer : (s.releaseRdBuffer h).given = s.given := by
  unfold Session.releaseRdBuffer
  cases s.held with
  | none => rfl
  | some hdr =>
    simp only
    split <;> rfl

/-- A reachable session is a queue, as long as no copy was refused. -/
theorem fifo (ho : h.Opened N) (hi : Inv N s R done pending) (hcopied : s.shared.refused = false) :
    Fifo h s where
  given := (hi.given_prefix hcopied).1
  givenCommitted := (hi.given_prefix hcopied).2
  handsOut := by
    intro op hop hbound
    cases op with
    | push event => exact .inl (given_push event)
    | getWrBuffer size => exact .inl (given_getWrBuffer size)
    | fill i off bytes => exact .inl (given_fill i off bytes)
    | commitWrBuffer i => exact .inl (given_commitWrBuffer i)
    | pop buffer => exact hi.handsOut_pop ho hcopied hbound
    | getRdBuffer => exact hi.handsOut_getRdBuffer ho hcopied
    | releaseRdBuffer => exact .inl given_releaseRdBuffer
  popped := by
    intro e hnext hc hheld buffer hfit hbound
    obtain ⟨es, rfl⟩ := hi.cons_of_next hheld hnext
    rcases hi.pop_eq ho buffer with ⟨_, f, fs, hpend, _, _, heq⟩ | ⟨_, hsmall⟩
    · rw [heq, ← (List.cons.inj hpend).1, hi.popped_content ho hcopied hfit hbound]
    · exact absurd (hsmall e es hheld rfl hc) (not_lt.mpr hfit)
  exposed := by
    intro e hnext hc hheld
    obtain ⟨es, rfl⟩ := hi.cons_of_next hheld hnext
    rcases hi.getRdBuffer_eq ho with ⟨_, f, fs, hpend, _, heq⟩ | ⟨_, hnot⟩
    · rw [heq, ← (List.cons.inj hpend).1, hi.shown_content hcopied]
    · rw [hnot e es hheld rfl] at hc
      exact absurd hc (by decide)
  shown := by
    intro hdr hheld
    obtain ⟨e, es, rfl, hc, hgiven, _⟩ := hi.releaseRdBuffer_eq ho hheld
    have hin := hi.stored e (List.mem_cons_self ..)
    have hread := hi.reading
    simp only [Reading, hheld, List.cons.injEq] at hread
    obtain ⟨_, f, fs, ⟨rfl, _⟩, rfl, _⟩ := hread
    refine ⟨e, ?_, by rw [hin.hdr, hc], hin.bytes hcopied⟩
    rw [hgiven.length_eq, hi.split]
    simp
  released := by
    cases hheld : s.held with
    | none =>
      unfold Session.releaseRdBuffer
      simp only [hheld]
    | some hdr =>
      obtain ⟨_, _, _, _, _, heq⟩ := hi.releaseRdBuffer_eq ho hheld
      rw [heq]
  committable := by
    intro i e he hc
    obtain ⟨j, _, hj⟩ := hi.uncommitted_index he hc
    unfold Session.commitWrBuffer
    simp only [he, if_pos hc, hi.octfTraceCommitWrBuffer_eq ho (List.mem_of_getElem? hj)]

end Inv

/-- Whatever whole operations the two sides interleave, the ring is a queue, if its headers are
empty when it is opened and every copy is within the bound of the library. -/
theorem session_fifo {lib : SafeString} (hlib : lib.Lawful) {heap : Bool} {mempoolSize : ℕ}
    {hdr : Bool} {m : Shared} {h : Handles} {s : Session} (h32 : mempoolSize < 2 ^ 32)
    (hempty : OpensEmpty mempoolSize hdr m)
    (hopen : openSession lib heap mempoolSize hdr m = .ok (h, s)) {ops : List Op}
    (hops : ∀ op ∈ ops, op.EventInRange)
    (hbound : Meets (Session.step h) (CopiesWithin h) ops s) :
    Fifo h (run (Session.step h) ops s) := by
  obtain ⟨ho, hi⟩ := openSession_inv hlib h32 hempty hopen
  have hsmall : ∀ op ∈ ops, op.SmallEvent := fun op hop => (hops op hop).smallEvent
  obtain ⟨R, done, pending, hrun⟩ := run_inv ho hsmall ⟨0, [], [], hi⟩
  obtain ⟨N, ring, -, -, rfl⟩ := openSession_ok hlib h32 hempty hopen
  exact hrun.fifo ho (run_copied ho hsmall hbound ⟨0, [], [], hi⟩ rfl)

theorem session_fifo_small : Fifo smallHandles (run (Session.step smallHandles)
    [.push [1, 2, 3], .getWrBuffer 2, .push [4], .fill 1 0 [7, 8], .commitWrBuffer 1,
      .pop [0, 0, 0, 0], .getRdBuffer, .releaseRdBuffer] smallSession) :=
  session_fifo SafeString.plain_lawful (by decide) (.inl (by decide)) openSession_small
    (by simp [Op.EventInRange]) (meets_copiesWithin (by simp [Op.WithinBound, rsizeMaxMem]) _)

/-- The event is taken out of the ring although its copy to such a buffer is refused. -/
theorem given_pop_refused {buffer : List UInt8} (hbound : rsizeMaxMem < buffer.length) :
    (run (Session.step smallHandles) [.push [1], .pop buffer] smallSession).given =
      [(1, buffer.take 1)] := by
  obtain ⟨ho, hi⟩ := openSession_inv SafeString.plain_lawful (by decide) (.inl (by decide))
    openSession_small
  obtain ⟨R, done, pending, hpushed⟩ :=
    hi.step ho (show (Op.push [1]).SmallEvent by simp [Op.SmallEvent])
  obtain ⟨es, rfl⟩ := hpushed.cons_of_next rfl rfl
  have hcopy : ∀ src, smallHandles.lib.memcpyS buffer src = buffer :=
    fun src => ho.lawful.memcpyS_refused buffer src hbound
  change ((smallSession.push smallHandles [1]).pop smallHandles buffer).given = _
  rcases hpushed.pop_eq ho buffer with ⟨-, e, es', hcons, -, -, heq⟩ | ⟨-, hsmall⟩
  · obtain ⟨rfl, -⟩ := List.cons.inj hcons
    exact (congrArg Session.given heq).trans (by rw [Inv.popped, hcopy]; rfl)
  · have hone := hsmall _ es rfl rfl rfl
    exact absurd (show buffer.length < 1 from hone) (by omega)

theorem accepted_pop (h : Handles) (s : Session) (buffer : List UInt8) :
    (s.pop h buffer).accepted = s.accepted := by
  unfold Session.pop
  split <;> rfl

theorem not_fifo_pop_refused {buffer : List UInt8} (hbound : rsizeMaxMem < buffer.length)
    (hzero : buffer.take 1 = [0]) :
    ¬ Fifo smallHandles (run (Session.step smallHandles) [.push [1], .pop buffer]
      smallSession) := by
  intro hfifo
  have hgiven := hfifo.given
  have haccepted : (run (Session.step smallHandles) [.push [1], .pop buffer]
    smallSession).accepted =
      [⟨⟨0, 16, 1⟩, [1], true⟩] :=
    (accepted_pop smallHandles (smallSession.push smallHandles [1]) buffer).trans (by decide)
  rw [given_pop_refused hbound, hzero, haccepted] at hgiven
  exact absurd hgiven (by decide)

/-- A buffer of more than 256 MiB keeps its zeros. -/
theorem not_fifo_largeBuffer :
    (Op.pop (List.replicate (rsizeMaxMem + 1) 0)).EventInRange ∧
      ¬ Fifo smallHandles (run (Session.step smallHandles)
        [.push [1], .pop (List.replicate (rsizeMaxMem + 1) 0)] smallSession) := by
  constructor
  · rw [Op.EventInRange, List.length_replicate]
    decide
  · refine not_fifo_pop_refused ?_ ?_
    · rw [List.length_replicate]
      exact Nat.lt_succ_self _
    · rw [List.replicate_succ]
      rfl

end Octf.Trace
