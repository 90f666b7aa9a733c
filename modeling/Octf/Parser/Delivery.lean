import Octf.Parser.Merge

/-! When the parser delivers all events of all files, each file in its order. -/
namespace Octf.Parser
open Foundation Foundation.Queues

namespace TraceFileParser

variable {p p' : TraceFileParser} {queues files : List (List Event)} {out : List Event}
  {rounds : ℕ}

/-- An event that is returned is no longer there. -/
theorem parseTraceEvent_size {event : Event} (h : p.parseTraceEvent = .ok (event, p')) :
    p'.size + 1 ≤ p.size := by
  unfold parseTraceEvent at h
  cases hevents : p.events with
  | nil => simp [hevents] at h
  | cons e events =>
    simp only [hevents] at h
    have hkeep : (⟨p.readers, events⟩ : TraceFileParser).size + 1 ≤ p.size := by
      simp only [size, hevents, List.length_cons]
      omega
    cases hreader : p.readers[e.queue]? with
    | none =>
      simp only [hreader, Except.ok.injEq, Prod.mk.injEq] at h
      rw [← h.2]
      exact hkeep
    | some reader =>
      cases reader with
      | nil =>
        simp only [hreader, Except.ok.injEq, Prod.mk.injEq] at h
        rw [← h.2]
        exact hkeep
      | cons y rest =>
        simp only [hreader, Except.ok.injEq, Prod.mk.injEq] at h
        rw [← h.2]
        obtain ⟨hlt, hget⟩ := List.getElem?_eq_some_iff.mp hreader
        have hinsert := OrderedSet.length_insert_le EventInfo.compare ⟨e.queue, y⟩ events
        have hsplit := List.take_append_drop e.queue p.readers
        rw [List.drop_eq_getElem_cons hlt, hget] at hsplit
        have hset : p.readers.set e.queue rest =
            p.readers.take e.queue ++ rest :: p.readers.drop (e.queue + 1) :=
          List.set_eq_take_append_cons_drop .. |>.trans (if_pos hlt)
        have hbefore : p.readers.flatten.length = ((p.readers.take e.queue).flatten ++
            (y :: rest ++ (p.readers.drop (e.queue + 1)).flatten)).length := by
          conv_lhs => rw [← hsplit]
          rw [List.flatten_append, List.flatten_cons]
        simp only [size, hset, hevents, hbefore, List.flatten_append, List.flatten_cons,
          List.length_append, List.length_cons]
        omega

/-- Nothing is delivered that was not there. -/
theorem processEvents_length (h : processEvents rounds p = (out, .finished)) :
    out.length ≤ p.size := by
  induction rounds generalizing p out with
  | zero => simp [processEvents] at h
  | succ rounds ih =>
    unfold processEvents at h
    split_ifs at h with hfinished
    · simp only [Prod.mk.injEq, and_true] at h
      simp [← h]
    · cases hparse : p.parseTraceEvent with
      | error message => simp [hparse] at h
      | ok result =>
        obtain ⟨event, p'⟩ := result
        cases hrest : processEvents rounds p' with
        | mk events outcome =>
          simp only [hparse, hrest, Prod.mk.injEq] at h
          obtain ⟨rfl, rfl⟩ := h
          have hsize := parseTraceEvent_size hparse
          have hlen := ih hrest
          rw [List.length_cons]
          omega

/-- Without ties everything is delivered, in an order that keeps that of every queue and
ascends if those do. -/
theorem processEvents_complete (h : Holds p queues) (hties : NeverTies Event.sid queues)
    (hrounds : queues.flatten.length < rounds) :
    ∃ out, processEvents rounds p = (out, .finished) ∧ Interleaving queues out ∧
      ((∀ q ∈ queues, q.Pairwise fun a b => a.sid ≤ b.sid) →
        out.Pairwise fun a b => a.sid ≤ b.sid) := by
  induction rounds generalizing p queues with
  | zero => exact absurd hrounds (Nat.not_lt_zero _)
  | succ rounds ih =>
    by_cases hnil : ∀ q ∈ queues, q = []
    · refine ⟨[], ?_, .done hnil, fun _ => List.Pairwise.nil⟩
      simp only [processEvents, h.isFinished_iff.mpr hnil, if_true]
    · obtain ⟨before, x, rest, after, p', rfl, hmin, hparse, hholds, _⟩ := h.parseTraceEvent hnil
      have hnext := hties.next (.head hmin)
      have hlen : (before ++ rest :: after).flatten.length < rounds := by
        simp only [List.flatten_append, List.flatten_cons, List.length_append,
          List.length_cons] at hrounds ⊢
        omega
      obtain ⟨out, hrest, hout, hsorted⟩ := ih (hholds hnext.now) hnext hlen
      have hnot : ¬ p.isFinished = true := fun hdone => hnil (h.isFinished_iff.mp hdone)
      refine ⟨x :: out, ?_, .take hout, ?_⟩
      · simp only [processEvents, hnot, Bool.false_eq_true, if_false, hparse, hrest]
      · intro hqueues
        have hrest' : ∀ q ∈ before ++ rest :: after, q.Pairwise fun a b => a.sid ≤ b.sid := by
          intro q hq
          rcases List.mem_append.mp hq with hq | hq
          · exact hqueues q (List.mem_append_left _ hq)
          rcases List.mem_cons.mp hq with rfl | hq
          · exact (List.pairwise_cons.mp (hqueues (x :: q) (by simp))).2
          · exact hqueues q (List.mem_append_right _ (List.mem_cons_of_mem _ hq))
        refine List.pairwise_cons.mpr ⟨fun y hy => ?_, hsorted hrest'⟩
        apply le_of_heads hmin hqueues
        have hmem := hout.perm.mem_iff.mp hy
        simp only [List.flatten_append, List.flatten_cons, List.mem_append] at hmem ⊢
        rcases hmem with hmem | hmem | hmem
        · exact .inl hmem
        · exact .inr (.inl (List.mem_cons_of_mem x hmem))
        · exact .inr (.inr hmem)

/-- A parser that delivers everything never meets a tie. -/
theorem neverTies_of_processEvents (h : Holds p queues)
    (hrun : processEvents rounds p = (out, .finished)) (hlen : out.length = queues.flatten.length) :
    NeverTies Event.sid queues := by
  induction rounds generalizing p queues out with
  | zero => simp [processEvents] at hrun
  | succ rounds ih =>
    intro queues' hreach
    rcases Relation.ReflTransGen.cases_head hreach with rfl | ⟨next, hstep, hreach⟩
    · exact h.distinct
    · have hnil : ¬ ∀ q ∈ queues, q = [] := by
        obtain @⟨before, rest, after, x, _⟩ := hstep
        intro hall
        exact absurd (hall (x :: rest) (by simp)) (List.cons_ne_nil _ _)
      obtain ⟨before, x, rest, after, p', rfl, hmin, hparse, hholds, htie⟩ :=
        h.parseTraceEvent hnil
      obtain rfl := (TakesSmallest.head hmin).unique h.distinct hstep
      have hnot : ¬ p.isFinished = true := fun hdone => hnil (h.isFinished_iff.mp hdone)
      cases hrest : processEvents rounds p' with
      | mk events outcome =>
        simp only [processEvents, hnot, Bool.false_eq_true, if_false, hparse, hrest,
          Prod.mk.injEq] at hrun
        obtain ⟨rfl, rfl⟩ := hrun
        have hsize := processEvents_length hrest
        rw [List.length_cons] at hlen
        have hdistinct : HeadsDistinct Event.sid (before ++ rest :: after) := by
          by_contra hties
          have hlost := htie hties
          omega
        apply ih (hholds hdistinct) hrest _ queues' hreach
        simp only [List.flatten_append, List.flatten_cons, List.length_append,
          List.length_cons] at hlen ⊢
        omega

/-- Opening the files of a complete trace. -/
theorem openReaders_eq (traceLocation : String) {n : ℕ} (hn : n ≤ files.length) :
    openReaders traceLocation files n = .ok (files.take n) := by
  induction n with
  | zero => rfl
  | succ n ih =>
    have hget : files[n]? = some files[n] := List.getElem?_eq_getElem hn
    simp only [openReaders, ih (Nat.le_of_succ_le hn), hget]
    rw [List.take_append_getElem]

theorem fillEvents_eq (queue : ℕ) (readers : List (List Event)) (events : List EventInfo) :
    fillEvents queue readers events = (readers.map List.tail,
      (entries queue readers).foldl (fun events e => OrderedSet.insert EventInfo.compare e events)
        events) := by
  induction readers generalizing queue events with
  | nil => rfl
  | cons reader readers ih =>
    cases reader with
    | nil => simp only [fillEvents, ih, entries, List.map_cons, List.tail_nil]
    | cons event rest =>
      simp only [fillEvents, ih, entries, List.map_cons, List.tail_cons, List.foldl_cons]

/-- A complete trace with these files. -/
def summaryOf (files : List (List Event)) : TraceSummary := ⟨.COMPLETE, files.length⟩

theorem init_eq (traceLocation : String) (hfiles : files ≠ []) :
    ∃ p, init traceLocation (some (summaryOf files)) files = .ok p ∧
      (HeadsDistinct Event.sid files → Holds p files) ∧
      (¬ HeadsDistinct Event.sid files → p.size < files.flatten.length) := by
  have hcount : ¬ (files.length : ℤ) ≤ 0 := by
    have hpos := List.length_pos_iff.mpr hfiles
    omega
  obtain ⟨hperm, hlost, hsorted⟩ := OrderedSet.foldl_insert_byKey
    (fun e : EventInfo => e.event.sid) List.Pairwise.nil (entries 0 files)
  rw [List.nil_append, entries_map_sid] at hperm hlost
  refine ⟨⟨files.map List.tail, (entries 0 files).foldl
    (fun events e => OrderedSet.insert EventInfo.compare e events) []⟩, ?_, ?_, ?_⟩
  · simp only [init, summaryOf, ne_eq, not_true_eq_false, if_false, hcount, Int.toNat_natCast,
      openReaders_eq traceLocation (le_refl files.length), List.take_length, fillEvents_eq]
  · intro hdistinct
    exact ⟨rfl, hperm hdistinct, hsorted⟩
  · intro htie
    have hlen := hlost htie
    have htotal := flatten_length 0 files
    simp only [size]
    rw [htotal]
    exact Nat.add_lt_add_right hlen _

/-- The trace opens, and reading it to the end delivers every event of every file once, the
events of each file in their order, and in ascending order if every file is. -/
def DeliversAll (traceLocation : String) (files : List (List Event)) : Prop :=
  ∃ p rounds out, init traceLocation (some (summaryOf files)) files = .ok p ∧
    processEvents rounds p = (out, .finished) ∧ out.Perm files.flatten ∧
    Interleaving files out ∧
    ((∀ file ∈ files, file.Pairwise fun a b => a.sid ≤ b.sid) →
      out.Pairwise fun a b => a.sid ≤ b.sid)

theorem neverTies_of_deliversAll {traceLocation : String} (h : DeliversAll traceLocation files) :
    NeverTies Event.sid files := by
  obtain ⟨p, rounds, out, hinit, hrun, hperm, _, _⟩ := h
  have hfiles : files ≠ [] := by
    rintro rfl
    simp [init, summaryOf] at hinit
  obtain ⟨p', hinit', hholds, hlost⟩ := init_eq traceLocation hfiles
  obtain rfl : p = p' := Except.ok.inj (hinit.symm.trans hinit')
  have hsize := processEvents_length hrun
  have hlen := hperm.length_eq
  have hdistinct : HeadsDistinct Event.sid files := by
    by_contra htie
    have hless := hlost htie
    omega
  exact neverTies_of_processEvents (hholds hdistinct) hrun hlen

theorem deliversAll_of_neverTies (traceLocation : String) (hfiles : files ≠ [])
    (hties : NeverTies Event.sid files) : DeliversAll traceLocation files := by
  obtain ⟨p, hinit, hholds, _⟩ := init_eq traceLocation hfiles
  obtain ⟨out, hrun, hout, hsorted⟩ :=
    processEvents_complete (hholds hties.now) hties (Nat.lt_succ_self _)
  exact ⟨p, _, out, hinit, hrun, hout.perm, hout, hsorted⟩

/-- In particular files that share no sequence id are delivered. -/
theorem deliversAll_of_disjoint (traceLocation : String) (hfiles : files ≠ [])
    (hdisjoint : files.Pairwise fun f g => ∀ a ∈ f, ∀ b ∈ g, a.sid ≠ b.sid) :
    DeliversAll traceLocation files :=
  deliversAll_of_neverTies traceLocation hfiles (neverTies_of_disjoint hdisjoint)

/-- A trace is delivered just when it has a queue and its queues never tie: while always
the event with the smallest sequence id is taken, no two queues have next events with one
sequence id. -/
theorem deliversAll_iff (traceLocation : String) (files : List (List Event)) :
    DeliversAll traceLocation files ↔ files ≠ [] ∧ NeverTies Event.sid files := by
  constructor
  · intro h
    refine ⟨?_, neverTies_of_deliversAll h⟩
    rintro rfl
    obtain ⟨p, _, _, hinit, _⟩ := h
    simp [init, summaryOf] at hinit
  · rintro ⟨hfiles, hties⟩
    exact deliversAll_of_neverTies traceLocation hfiles hties

/-- Two queues whose first events have the same sequence id: the second queue never gets
into the set, and the run ends in an exception with its events unread. -/
theorem deliversAll_ties :
    ¬ DeliversAll "trace" [[⟨⟨5, 0⟩, .notSet⟩], [⟨⟨5, 0⟩, .notSet⟩, ⟨⟨6, 0⟩, .notSet⟩]] ∧
      ∃ p, init "trace" (some ⟨.COMPLETE, 2⟩)
          [[⟨⟨5, 0⟩, .notSet⟩], [⟨⟨5, 0⟩, .notSet⟩, ⟨⟨6, 0⟩, .notSet⟩]] = .ok p ∧
        processEvents 3 p = ([⟨⟨5, 0⟩, .notSet⟩], .exception
          "Attempted to parse event using parser which has finished or wasn't initialized") := by
  constructor
  · intro h
    have hdistinct := (neverTies_of_deliversAll h).now
    simp [HeadsDistinct, Event.sid] at hdistinct
  · exact ⟨⟨[[], [⟨⟨6, 0⟩, .notSet⟩]], [⟨0, ⟨⟨5, 0⟩, .notSet⟩⟩]⟩, rfl, rfl⟩

end TraceFileParser

end Octf.Parser
