import Octf.Interface.Recording
import Octf.Trace.Fifo

/-! What the file of a trace job holds after any run: the messages of the first events that the ring
has accepted. -/
namespace Octf.Interface
open Foundation Octf.Parser Octf.Storage

namespace Recording

variable {h : Trace.Handles} {encode : Event → List UInt8} {ops : FileOps} {N R : ℕ}
  {s : Trace.Session} {done pending : List Trace.Event} {q : Recording}

/-- How many of the events that the job's thread was given are not in the file yet. -/
def unsaved : Reader → ℕ
  | .serialize _ _ => 1
  | _ => 0

/-- The file holds the messages of the first `k` events that were given. -/
structure Stored (encode : Event → List UInt8) (k : ℕ) (q : Recording) : Prop where
  valid : q.serializer.Valid
  messages : ∃ messages : List Event,
    ((q.ring.given.take k).map fun e => messageOf e.2) = messages.map some ∧
    q.serializer.file.bytes.load 0 q.serializer.dataOffset = frames encode messages ∧
    q.traceCount = messages.length

structure Inv (encode : Event → List UInt8) (N : ℕ) (q : Recording) : Prop where
  ring : ∃ R done pending, Trace.Inv N q.ring R done pending
  copied : q.ring.shared.refused = false
  closed : q.ring.shared.phdr.closed = 0
  reads : q.Reads
  converter : ∃ history, q.converter = after history
  stored : q.serializer.failed = false → ∃ k, Stored encode k q ∧
    (q.reader ≠ .ended .error → k + unsaved q.reader = q.ring.given.length)
  /-- the job fails only for an event or for its file -/
  error : q.reader = .ended .error → q.serializer.failed = true ∨
    ∃ e ∈ q.ring.given, messageOf e.2 = none
  failed : q.serializer.failed = true → q.reader = .ended .error

/-- An event that is well-formed and has a message that is not too long. -/
structure Writable (encode : Event → List UInt8) (event : List UInt8) : Prop where
  wellFormed : WellFormed event
  short : ∀ message, messageOf event = some message → (encode message).length < 2 ^ 31

/-- The event that is being serialized is the last one that was given, in its place in the ring. -/
theorem Reads.shows (ho : h.Opened N) (hi : Trace.Inv N q.ring R done pending)
    (hcopied : q.ring.shared.refused = false) (hreads : q.Reads) {traceBuffer traceSize : ℕ}
    (hreader : q.reader = .serialize traceBuffer traceSize) :
    ∃ event, q.ring.given = done.map Trace.Event.content ++ [(traceSize, event)] ∧
      (q.rawEvent h traceBuffer traceSize).Shows event := by
  unfold Reads at hreads
  simp only [hreader] at hreads
  obtain ⟨hheld, e, he, rfl, rfl⟩ := hreads
  obtain ⟨hdr, hheld⟩ := Option.ne_none_iff_exists'.mp hheld
  have hread := hi.reading
  simp only [Trace.Reading, hheld] at hread
  obtain ⟨-, f, es, rfl, -, -, hgiven⟩ := hread
  obtain rfl : f = e := by
    rw [hgiven.length_eq, hi.split] at he
    simpa using he
  have hmem : f ∈ f :: es := List.mem_cons_self
  obtain ⟨-, hptr, -⟩ := hi.inside ho.sized hmem
  have hle := Trace.le_traceAlign f.size
  have hbytes := (hi.stored f hmem).bytes hcopied
  refine ⟨f.bytes, by rw [hgiven.contents hcopied, List.map_append]; rfl, ?_, ?_, ?_⟩
  · rw [← hbytes, Memory.length_load]
    rfl
  · simp only [rawEvent, ho.consumerSize]
    omega
  · rw [← hbytes]
    exact Memory.load_congr fun i _ => by simp only [rawEvent, Nat.zero_add]

theorem Inv.produce (ho : h.Opened N) (hq : Inv encode N q) {op : Trace.Op}
    (hop : (Action.produce op).Fits) :
    Inv encode N (q.step h encode ops (.produce op)) := by
  obtain ⟨R, done, pending, hi⟩ := hq.ring
  obtain ⟨hgiven, hheld, hclosed, hplaced⟩ := keeps_produce ho hi hop
  have hsmall : op.SmallEvent := by
    cases op with
    | pop _ | getRdBuffer | releaseRdBuffer => exact hop.elim
    | _ => exact Trace.Op.EventInRange.smallEvent hop.1
  have hbound : op.WithinBound := by
    cases op with
    | pop _ | getRdBuffer | releaseRdBuffer => exact hop.elim
    | _ => exact hop.2
  refine ⟨hi.step ho hsmall, hi.step_copied ho hsmall (fun _ => hbound) hq.copied,
    hclosed.trans hq.closed, ?_, hq.converter, ?_, ?_, hq.failed⟩
  · have hreads := hq.reads
    unfold Reads at hreads ⊢
    simp only [step, hgiven, hheld]
    cases hreader : q.reader with
    | serialize traceBuffer traceSize =>
      simp only [hreader] at hreads ⊢
      obtain ⟨hsome, e, he, rfl, rfl⟩ := hreads
      obtain ⟨e', he', hplace⟩ := hplaced _ e he
      exact ⟨hsome, e', he', congrArg Trace.Place.ptr hplace, congrArg Trace.Place.size hplace⟩
    | ended endState =>
      simp only [hreader] at hreads ⊢
      cases endState <;> exact hreads
    | _ =>
      simp only [hreader] at hreads ⊢
      exact hreads
  · intro hok
    obtain ⟨k, ⟨hvalid, hmessages⟩, hk⟩ := hq.stored hok
    refine ⟨k, ⟨hvalid, ?_⟩, ?_⟩
    · simpa only [step, hgiven] using hmessages
    · simpa only [step, hgiven] using hk
  · simpa only [step, hgiven] using hq.error

/-- The job's thread holds no event and has not failed. -/
def Free : Reader → Prop
  | .serialize _ _ | .releaseRdBuffer | .ended .error => False
  | _ => True

theorem Free.alive {reader : Reader} (hfree : Free reader) : reader ≠ .ended .error := by
  rintro rfl
  exact hfree

theorem Free.unsaved_eq {reader : Reader} (hfree : Free reader) : unsaved reader = 0 := by
  cases reader with
  | serialize => exact hfree.elim
  | _ => rfl

theorem reads_of_free (hfree : Free q.reader) : q.Reads ↔ q.ring.held = none := by
  unfold Reads
  cases hreader : q.reader with
  | serialize | releaseRdBuffer =>
    rw [hreader] at hfree
    exact hfree.elim
  | ended endState =>
    rw [hreader] at hfree
    cases endState with
    | error => exact hfree.elim
    | _ => rfl
  | _ => rfl

theorem free_loopEnd (q : Recording) : Free q.loopEnd.reader := by
  unfold loopEnd
  simp only
  split_ifs <;> trivial

theorem Inv.ok (hq : Inv encode N q) (halive : q.reader ≠ .ended .error) :
    q.serializer.failed = false := by
  rw [Bool.eq_false_iff]
  exact mt hq.failed halive

/-- A step between two calls on the ring. -/
theorem Inv.move (hq : Inv encode N q) (hfree : Free q.reader) {reader : Reader}
    (hfree' : Free reader) (finish : Bool) :
    Inv encode N { q with finish := finish, reader := reader } where
  ring := hq.ring
  copied := hq.copied
  closed := hq.closed
  reads := by
    rw [reads_of_free hfree']
    exact (reads_of_free hfree).mp hq.reads
  converter := hq.converter
  stored := by
    intro hok
    obtain ⟨k, ⟨hvalid, hmessages⟩, hk⟩ := hq.stored hok
    refine ⟨k, ⟨hvalid, hmessages⟩, fun _ => ?_⟩
    rw [← hk hfree.alive, hfree.unsaved_eq, hfree'.unsaved_eq]
  error := fun herror => absurd herror hfree'.alive
  failed := fun hfailed => absurd (hq.failed hfailed) hfree.alive

theorem Inv.getRdBuffer (ho : h.Opened N) (hq : Inv encode N q)
    (hreader : q.reader = .getRdBuffer) (last : Bool) :
    Inv encode N (q.consume h encode ops last) := by
  obtain ⟨R, done, pending, hi⟩ := hq.ring
  have hfree : Free q.reader := by rw [hreader]; trivial
  have hheld : q.ring.held = none := (reads_of_free hfree).mp hq.reads
  have hresult := hi.octfTraceGetRdBuffer_eq ho hheld
  unfold consume
  simp only [hreader, hresult]
  rcases hr : Trace.Inv.readable pending with _ | e
  · -- nothing is ready, and the ring is not closed
    have hring : q.ring.getRdBuffer h = q.ring := by
      unfold Trace.Session.getRdBuffer
      rw [hresult, hr]
    have hagain : Trace.noEvent q.ring.shared = .EAGAIN := by
      unfold Trace.noEvent
      rw [hq.closed]
      rfl
    simp only [hagain, hring]
    exact hq.move hfree (free_loopEnd q) q.finish
  · obtain ⟨es, rfl, hc⟩ := Trace.Inv.readable_eq_some hr
    have hgiven := hi.given_of_not_held hheld
    rcases hi.getRdBuffer_eq ho with ⟨-, f, fs, hsplit, -, heq⟩ | ⟨-, hnot⟩
    · obtain ⟨rfl, rfl⟩ := List.cons.inj hsplit
      obtain ⟨R', done', pending', hi'⟩ := hi.getRdBuffer ho
      simp only
      refine ⟨⟨R', done', pending', hi'⟩, ?_, ?_, ⟨?_, e, ?_, rfl, rfl⟩, hq.converter,
        ?_, nofun, ?_⟩
      · rw [heq]
        exact hq.copied
      · rw [heq]
        exact hq.closed
      · simp [heq]
      · simp [heq, hi.split, hgiven.length_eq]
      · intro hok
        obtain ⟨k, ⟨hvalid, hmessages⟩, hk⟩ := hq.stored hok
        have hlen := hk hfree.alive
        rw [hfree.unsaved_eq, Nat.add_zero] at hlen
        refine ⟨k, ⟨hvalid, ?_⟩, fun _ => ?_⟩
        · simp only [heq]
          rw [List.take_append_of_le_length hlen.le]
          exact hmessages
        · simp only [heq, unsaved, List.length_append, List.length_singleton, hlen]
      · intro hfailed
        exact absurd (hq.failed hfailed) hfree.alive
    · rw [hnot e es hheld rfl] at hc
      cases hc

theorem Inv.releaseRdBuffer (ho : h.Opened N) (hq : Inv encode N q)
    (hreader : q.reader = .releaseRdBuffer) (last : Bool) :
    Inv encode N (q.consume h encode ops last) := by
  obtain ⟨R, done, pending, hi⟩ := hq.ring
  have halive : q.reader ≠ .ended .error := by simp [hreader]
  have hheld := hq.reads
  simp only [Reads, hreader] at hheld
  obtain ⟨hdr, hheld⟩ := Option.ne_none_iff_exists'.mp hheld
  obtain ⟨e, es, rfl, -, -, heq⟩ := hi.releaseRdBuffer_eq ho hheld
  have hi' := hi.releaseRdBuffer ho
  rw [heq] at hi'
  unfold consume
  simp only [hreader, heq, if_true]
  refine ⟨hi', hq.copied, hq.closed, rfl, hq.converter, fun hok => ?_, nofun,
    fun hfailed => absurd (hq.failed hfailed) halive⟩
  obtain ⟨k, ⟨hvalid, hmessages⟩, hk⟩ := hq.stored hok
  refine ⟨k, ⟨hvalid, hmessages⟩, fun _ => ?_⟩
  rw [← hk halive, hreader]
  rfl

/-- The event that the job's thread holds is converted in place, and its message is appended to
the file. -/
theorem Inv.serialize (ho : h.Opened N) (hq : Inv encode N q) {traceBuffer traceSize : ℕ}
    (hreader : q.reader = .serialize traceBuffer traceSize)
    (hwrite : ∀ e ∈ q.ring.given, Writable encode e.2) :
    Inv encode N (q.serialize h encode ops traceBuffer traceSize) := by
  obtain ⟨R, done, pending, hi⟩ := hq.ring
  obtain ⟨history, hhistory⟩ := hq.converter
  obtain ⟨event, hgiven, hshows⟩ := hq.reads.shows ho hi hq.copied hreader
  have halive : q.reader ≠ .ended .error := by simp [hreader]
  have hmem : (traceSize, event) ∈ q.ring.given := by rw [hgiven]; simp
  have hevent := hwrite _ hmem
  have hmessage := message_eq history hshows hevent.wellFormed
  obtain ⟨k, ⟨hvalid, messages, hmessages, hfile, hcount⟩, hk⟩ := hq.stored (hq.ok halive)
  have hlen : k + 1 = q.ring.given.length := by
    have hlen := hk halive
    rwa [hreader] at hlen
  have hconverter : ∃ history', (q.converter.convertTrace (q.rawEvent h traceBuffer traceSize)).2 =
      after history' := by
    refine ⟨history ++ [q.rawEvent h traceBuffer traceSize], ?_⟩
    rw [hhistory, after, after, run_append]
    rfl
  have hheld : q.ring.held ≠ none := by
    have hreads := hq.reads
    simp only [Reads, hreader] at hreads
    exact hreads.1
  unfold Recording.serialize
  rw [← hhistory] at hmessage
  simp only [hmessage]
  cases hcase : messageOf event with
  | none =>
    exact ⟨hq.ring, hq.copied, hq.closed, trivial, hconverter,
      fun _ => ⟨k, ⟨hvalid, messages, hmessages, hfile, hcount⟩, fun hne => absurd rfl hne⟩,
      fun _ => .inr ⟨_, hmem, hcase⟩, fun _ => rfl⟩
  | some message =>
    rcases FileTraceSerializer.serialize_spec ops hvalid (hevent.short message hcase) with
      ⟨hfail, -⟩ | ⟨serializer, hserialize, hvalid', -, hfailed, hdata⟩
    · -- a failed file operation is never answered with success
      rcases hresult : q.serializer.serialize encode ops message with ⟨_ | success, serializer⟩
      · rw [hresult] at hfail
        simp only [hresult]
        exact ⟨hq.ring, hq.copied, hq.closed, trivial, hconverter,
          fun hok => absurd (hfail.symm.trans hok) (by decide), fun _ => .inl hfail, fun _ => rfl⟩
      · have hsame := FileTraceSerializer.failed_of_serialize_ok ops hresult
        rw [hresult, hsame, hq.ok halive] at hfail
        cases hfail
    · simp only [hserialize]
      refine ⟨hq.ring, hq.copied, hq.closed, hheld, hconverter, fun _ => ?_,
        fun h => absurd h (by simp),
        fun hbad => ?_⟩
      · refine ⟨k + 1, ⟨hvalid', messages ++ [message], ?_, ?_, ?_⟩, fun _ => hlen⟩
        · have hsplit : q.ring.given.take (k + 1) =
              q.ring.given.take k ++ [(traceSize, event)] := by
            rw [hlen, List.take_length, hgiven, List.take_left']
            rw [hgiven] at hlen
            simpa using hlen.symm
          simp only [hsplit, List.map_append, hmessages, List.map_singleton, hcase]
        · rw [hdata, hfile, frames, frames, List.flatMap_append, List.flatMap_singleton]
        · have hbound : messages.length + 1 < 2 ^ 63 := by
            have hframes : (messages ++ [message]).length ≤
                (frames encode (messages ++ [message])).length := length_le_frames
            have hoffset := congrArg List.length hdata
            rw [hfile, Memory.length_load] at hoffset
            simp only [frames, List.flatMap_append, List.flatMap_singleton, List.length_append,
              List.length_singleton] at hframes hoffset
            have hdata' := hvalid'.data
            omega
          rw [hcount, incInt64, if_neg (by omega), List.length_append, List.length_singleton]
          push_cast
          rfl
      · rw [hfailed, hq.ok halive] at hbad
        cases hbad

theorem Inv.consume (ho : h.Opened N) (hq : Inv encode N q)
    (hwrite : ∀ e ∈ q.ring.given, Writable encode e.2) (last : Bool) :
    Inv encode N (q.consume h encode ops last) := by
  cases hreader : q.reader with
  | wait =>
    unfold Recording.consume
    simp only [hreader]
    refine hq.move ?_ ?_ _
    · rw [hreader]
      trivial
    · trivial
  | isEmpty =>
    have hfree : Free q.reader := by rw [hreader]; trivial
    unfold Recording.consume
    simp only [hreader]
    split
    · refine hq.move hfree ?_ _
      trivial
    · exact hq.move hfree (free_loopEnd q) _
  | getRdBuffer => exact hq.getRdBuffer ho hreader last
  | serialize traceBuffer traceSize =>
    unfold Recording.consume
    simp only [hreader]
    exact hq.serialize ho hreader hwrite
  | releaseRdBuffer => exact hq.releaseRdBuffer ho hreader last
  | ended endState =>
    unfold Recording.consume
    simpa only [hreader] using hq

theorem Inv.step (ho : h.Opened N) (hq : Inv encode N q) {action : Action} (hfits : action.Fits)
    (hwrite : ∀ e ∈ q.ring.given, Writable encode e.2) :
    Inv encode N (q.step h encode ops action) := by
  cases action with
  | produce op => exact hq.produce ho hfits
  | consume last => exact hq.consume ho hwrite last

/-- What was given is never taken back. -/
theorem given_step {action : Action} (hfits : action.Fits) :
    q.ring.given <+: (q.step h encode ops action).ring.given := by
  cases action with
  | produce op =>
    simp only [Recording.step]
    cases op with
    | pop _ | getRdBuffer | releaseRdBuffer => exact hfits.elim
    | push event => simp only [Trace.Session.step, Trace.Inv.given_push, List.prefix_rfl]
    | getWrBuffer size =>
      simp only [Trace.Session.step, Trace.Inv.given_getWrBuffer, List.prefix_rfl]
    | fill i off bytes => simp only [Trace.Session.step, Trace.Inv.given_fill, List.prefix_rfl]
    | commitWrBuffer i =>
      simp only [Trace.Session.step, Trace.Inv.given_commitWrBuffer, List.prefix_rfl]
  | consume last =>
    have hget : q.ring.given <+: (q.ring.getRdBuffer h).given := by
      unfold Trace.Session.getRdBuffer
      split
      · exact List.prefix_append ..
      · exact List.prefix_rfl
    simp only [Recording.step, Recording.consume]
    cases q.reader with
    | wait | ended => exact List.prefix_rfl
    | isEmpty =>
      simp only
      split <;> exact List.prefix_rfl
    | getRdBuffer =>
      simp only
      split <;> exact hget
    | serialize traceBuffer traceSize =>
      simp only [Recording.serialize]
      split
      · exact List.prefix_rfl
      · split <;> exact List.prefix_rfl
    | releaseRdBuffer => simp only [Trace.Inv.given_releaseRdBuffer, List.prefix_rfl]

/-- Whatever the producers and the job's thread interleave, the file holds the messages of the
first events. -/
theorem Inv.run (ho : h.Opened N) {schedule : List Action} (hfits : ∀ a ∈ schedule, a.Fits)
    (hq : Inv encode N q)
    (hwrite : ∀ e ∈ (Foundation.run (Recording.step h encode ops) schedule q).ring.given,
      Writable encode e.2) :
    Inv encode N (Foundation.run (Recording.step h encode ops) schedule q) := by
  induction schedule using List.reverseRecOn with
  | nil => exact hq
  | append_singleton schedule action ih =>
    rw [run_append, run_cons, run_nil] at hwrite ⊢
    have hlast := hfits action (by simp)
    have hearlier := fun e he => hwrite e ((given_step hlast).mem he)
    exact (ih (fun a ha => hfits a (by simp [ha])) hearlier).step ho hlast hearlier

theorem init_inv {lib : Trace.SafeString} (hlib : lib.Lawful) {heap : Bool} {size : ℕ} {hdr : Bool}
    {m : Trace.Shared} (h32 : size < 2 ^ 32) (hempty : Trace.OpensEmpty size hdr m)
    (hopen : Trace.openSession lib heap size hdr m = .ok (h, s)) (outputFileName : String)
    {pageSize : ℕ} (hpage : 0 < pageSize ∧ pageSize < 2 ^ 64) (file : File) :
    h.Opened h.producer.ringSize ∧ Inv encode h.producer.ringSize
      (init s (FileTraceSerializer.opened outputFileName pageSize file)) := by
  obtain ⟨ho, hi⟩ := Trace.openSession_inv hlib h32 hempty hopen
  obtain ⟨_, _, -, -, hs⟩ := Trace.openSession_ok hlib h32 hempty hopen
  refine ⟨ho, ⟨0, [], [], hi⟩, ?_, ?_, ?_, ⟨[], rfl⟩, fun _ => ?_, nofun, nofun⟩
  · rw [hs]
    rfl
  · rw [hs]
    rfl
  · rw [hs]
    rfl
  · refine ⟨0, ⟨FileTraceSerializer.opened_valid outputFileName hpage file, [], rfl, ?_, rfl⟩, ?_⟩
    · simp [init, FileTraceSerializer.opened, Memory.load]
    · rw [hs]
      exact fun _ => rfl

/-- The events that the job has counted, the first ones of those that the ring has accepted. -/
def counted (q : Recording) : List Trace.Event := q.ring.accepted.take q.traceCount.toNat

/-- Their messages. -/
def messages (q : Recording) : List Event := q.counted.filterMap fun e => messageOf e.bytes

/-- While no file operation fails, the file holds the messages of the counted events, and only an
event that is being serialized was given and is not counted. -/
theorem Inv.counted (hq : Inv encode N q) (hok : q.serializer.failed = false) :
    q.serializer.Valid ∧
      q.serializer.file.bytes.load 0 q.serializer.dataOffset = frames encode q.messages ∧
      q.traceCount = q.messages.length ∧
      (q.counted.map fun e => messageOf e.bytes) = q.messages.map some ∧
      (∀ e ∈ q.counted, e.content ∈ q.ring.given) ∧
      (q.reader ≠ .ended .error → q.messages.length + unsaved q.reader = q.ring.given.length) := by
  obtain ⟨k, ⟨hvalid, messages, hmessages, hfile, hcount⟩, hk⟩ := hq.stored hok
  obtain ⟨R, done, pending, hi⟩ := hq.ring
  obtain ⟨hgiven, -⟩ := hi.given_prefix hq.copied
  have hlen : messages.length = min k q.ring.given.length := by
    have hlen := congrArg List.length hmessages
    simpa only [List.length_map, List.length_take] using hlen.symm
  have htake : q.ring.given.take k = q.counted.map Trace.Event.content := by
    have hshort : q.ring.given.take k = q.ring.given.take messages.length := by
      rw [hlen, List.take_eq_take_iff]
      omega
    rw [hshort, hgiven, Recording.counted, hcount, Int.toNat_natCast, ← List.map_take,
      List.take_take, min_eq_left (by omega)]
  have hmap : (q.counted.map fun e => messageOf e.bytes) = messages.map some := by
    rw [← hmessages, htake, List.map_map]
    rfl
  have heq : q.messages = messages := by
    have hfilter := congrArg (List.filterMap id) hmap
    rwa [List.filterMap_map, List.filterMap_map, Function.id_comp, Function.id_comp,
      List.filterMap_some] at hfilter
  rw [heq]
  refine ⟨hvalid, hfile, hcount, hmap, fun e he => ?_, fun halive => ?_⟩
  · apply List.mem_of_mem_take (i := k)
    rw [htake]
    exact List.mem_map_of_mem he
  · have hlast := hk halive
    omega

end Recording

end Octf.Interface
