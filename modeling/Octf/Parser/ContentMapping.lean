import Mathlib.Data.List.Find
import Octf.Foundation.FirstMatch
import Octf.Parser.V0ParsedIoTraceEventHandler

/-! The mappings of the handler: every key leads to the cached IO with it, oldest first, and the
ones among them that are completed come before the others. -/
namespace Octf.Parser.v0
open Foundation

namespace ParsedIoTraceEventHandler

/-- A cached IO with the device, sectors and length. -/
def Holds (key : Key) (entry : ℕ × ParsedEvent) : Bool :=
  entry.2.io.isSome && parsedKey entry.2 = key

theorem holds_iff {key : Key} {entry : ℕ × ParsedEvent} :
    Holds key entry = true ↔ entry.2.io.isSome = true ∧ parsedKey entry.2 = key := by
  rw [Holds, Bool.and_eq_true, decide_eq_true_eq]

/-- What the mappings say about the queue, and the completions about both. -/
structure Consistent (c : Config) (s : ParsedIoTraceEventHandler) : Prop where
  running : s.thrown = false
  addresses : (s.queue.map (·.1)).Nodup
  queued : ∀ entry ∈ s.queue, entry.1 < s.allocated
  completed : ∀ pointer ∈ s.latencySet, pointer < s.allocated
  sids : (s.queue.map (·.2.header.sid)).Nodup
  mapped : ∀ key, s.eventMapping key = (s.queue.filter (Holds key)).map (·.1)
  sidMapped : ∀ sid, s.sidMapping sid ≠ none → sid ∈ s.queue.map (·.2.header.sid)
  inside : ∀ entry ∈ s.queue, ∀ io, entry.2.io = some io → isOutside c io.lba io.len = false
  latent : ∀ entry ∈ s.queue, entry.2.latency ≠ 0 → entry.1 ∈ s.latencySet
  inOrder : ∀ key, s.queue.Pairwise fun a b =>
    Holds key a = true → Holds key b = true → b.1 ∈ s.latencySet → a.1 ∈ s.latencySet

variable {s : ParsedIoTraceEventHandler} {c : Config}

theorem consistent_init (c : Config) : Consistent c init where
  running := rfl
  addresses := .nil
  queued := by simp [init]
  completed := by simp [init]
  sids := .nil
  mapped := fun _ => rfl
  sidMapped := fun _ h => absurd rfl h
  inside := by simp [init]
  latent := by simp [init]
  inOrder := fun _ => .nil

namespace Consistent

theorem cached_eq (h : Consistent c s) {entry : ℕ × ParsedEvent} (hmem : entry ∈ s.queue) :
    s.cached entry.1 = some entry.2 := by
  have hfind : s.queue.find? (fun e => e.1 = entry.1) = some entry := by
    have hnodup := h.addresses
    generalize s.queue = queue at hmem hnodup
    induction queue with
    | nil => exact absurd hmem List.not_mem_nil
    | cons e queue ih =>
      obtain ⟨hnot, hnodup⟩ := List.nodup_cons.mp hnodup
      rcases List.mem_cons.mp hmem with rfl | hmem
      · simp
      · have hne : e.1 ≠ entry.1 := fun heq => hnot (List.mem_map.mpr ⟨entry, hmem, heq.symm⟩)
        simpa [List.find?_cons, hne] using ih hmem hnodup
  rw [cached, hfind]
  rfl

/-- The list of a key leads to the oldest IO whose latency is zero. -/
theorem get_eq (h : Consistent c s) (key : Key) :
    s.get key = s.queue.find? fun entry => Holds key entry && entry.2.latency = 0 := by
  have hlist : ∀ l : List (ℕ × ParsedEvent), (∀ entry ∈ l, s.cached entry.1 = some entry.2) →
      (l.map (·.1)).findSome? (fun pointer => (s.cached pointer).bind fun event =>
        if event.latency = 0 then some (pointer, event) else none) =
      l.find? fun entry => entry.2.latency = 0 := by
    intro l hl
    induction l with
    | nil => rfl
    | cons entry l ih =>
      rw [List.map_cons, List.findSome?_cons, hl entry List.mem_cons_self, List.find?_cons]
      by_cases hzero : entry.2.latency = 0
      · simp [hzero]
      · simpa [hzero] using ih fun e he => hl e (List.mem_cons_of_mem _ he)
  rw [get, h.mapped, hlist _ fun entry he => h.cached_eq (List.mem_of_mem_filter he),
    List.find?_filter]
  exact List.find?_congr fun entry _ => by simp

end Consistent

/-! ### Flushing -/

theorem flushCompleted_induction {P : ParsedIoTraceEventHandler → Prop}
    (hpush : ∀ s, P s → P (s.pushOutEvent c)) (rounds : ℕ) (hs : P s) :
    P (s.flushCompleted c rounds) := by
  induction rounds generalizing s with
  | zero => exact hs
  | succ rounds ih =>
    unfold flushCompleted
    split
    · exact hs
    · split
      · exact ih (hpush s hs)
      · exact hs

theorem flushRest_induction {P : ParsedIoTraceEventHandler → Prop}
    (hpush : ∀ s, P s → P (s.pushOutEvent c)) (isFinished : Bool) (rounds : ℕ) (hs : P s) :
    P (s.flushRest c isFinished rounds) := by
  induction rounds generalizing s with
  | zero => exact hs
  | succ rounds ih =>
    unfold flushRest
    split
    · exact hs
    · dsimp only
      split
      · exact hpush s hs
      · exact ih (hpush s hs)

/-- What pushing out events keeps, flushing keeps. -/
theorem flushEvents_induction {P : ParsedIoTraceEventHandler → Prop}
    (hpush : ∀ s, P s → P (s.pushOutEvent c)) (isFinished : Bool) (hs : P s) :
    P (s.flushEvents c isFinished) := by
  unfold flushEvents
  have hfirst := flushCompleted_induction hpush s.queue.length hs
  dsimp only
  split
  · exact hfirst
  · exact flushRest_induction hpush isFinished _ hfirst

/-! ### The invariant -/

/-- What the invariant is about. -/
def core (s : ParsedIoTraceEventHandler) :=
  (s.queue, s.allocated, s.eventMapping, s.sidMapping, s.latencySet, s.thrown)

@[simp] theorem core_touchDevice (id : ℕ) : (s.touchDevice id).core = s.core := by
  unfold touchDevice
  split <;> rfl

@[simp] theorem core_noteOffsets (header : EventHeader) : (s.noteOffsets header).core = s.core := by
  unfold noteOffsets
  split <;> rfl

namespace Consistent

theorem congr {s' : ParsedIoTraceEventHandler} (h : Consistent c s) (hcore : s'.core = s.core) :
    Consistent c s' := by
  simp only [core, Prod.mk.injEq] at hcore
  obtain ⟨hqueue, hallocated, hmapping, hsids, hset, hthrown⟩ := hcore
  obtain ⟨h₁, h₂, h₃, h₄, h₅, h₆, h₇, h₈, h₉, h₁₀⟩ := h
  constructor <;> simp only [hqueue, hallocated, hmapping, hsids, hset, hthrown] <;> assumption

/-- A new event at the end of the queue, with a mapping if it is a request. -/
theorem cache {s' : ParsedIoTraceEventHandler} (h : Consistent c s) {event : ParsedEvent}
    (hqueue : s'.queue = s.queue ++ [(s.allocated, event)])
    (hallocated : s'.allocated = s.allocated + 1)
    (hmapping : ∀ key, s'.eventMapping key =
      s.eventMapping key ++ if Holds key (s.allocated, event) then [s.allocated] else [])
    (hsidMapping : ∀ sid, s'.sidMapping sid ≠ none →
      s.sidMapping sid ≠ none ∨ sid = event.header.sid)
    (hset : s'.latencySet = s.latencySet) (hrunning : s'.thrown = false)
    (hzero : event.latency = 0)
    (hinside : ∀ io, event.io = some io → isOutside c io.lba io.len = false)
    (hsid : event.header.sid ∉ s.queue.map (·.2.header.sid)) : Consistent c s' where
  running := hrunning
  addresses := by
    have hnew : ∀ pointer ∈ s.queue.map (·.1), pointer ≠ s.allocated := by
      intro pointer hmem
      obtain ⟨entry, hentry, rfl⟩ := List.mem_map.mp hmem
      exact (h.queued entry hentry).ne
    rw [hqueue, List.map_append, List.map_singleton]
    refine List.nodup_append.mpr ⟨h.addresses, List.nodup_singleton _, fun a ha b hb => ?_⟩
    exact List.mem_singleton.mp hb ▸ hnew a ha
  queued := by
    rw [hqueue, hallocated]
    intro entry hentry
    rcases List.mem_append.mp hentry with hentry | hentry
    · exact Nat.lt_succ_of_lt (h.queued entry hentry)
    · rw [List.mem_singleton.mp hentry]
      exact Nat.lt_succ_self _
  completed := by
    rw [hset, hallocated]
    exact fun pointer hpointer => Nat.lt_succ_of_lt (h.completed pointer hpointer)
  sids := by
    rw [hqueue, List.map_append, List.map_singleton]
    refine List.nodup_append.mpr ⟨h.sids, List.nodup_singleton _, fun a ha b hb heq => hsid ?_⟩
    exact List.mem_singleton.mp hb ▸ heq ▸ ha
  mapped := by
    intro key
    rw [hmapping, h.mapped, hqueue, List.filter_append, List.map_append]
    by_cases hholds : Holds key (s.allocated, event) <;> simp [hholds]
  sidMapped := by
    intro sid hne
    rw [hqueue, List.map_append]
    rcases hsidMapping sid hne with hne | rfl
    · exact List.mem_append_left _ (h.sidMapped sid hne)
    · exact List.mem_append_right _ (List.mem_singleton_self _)
  inside := by
    rw [hqueue]
    intro entry hentry
    rcases List.mem_append.mp hentry with hentry | hentry
    · exact h.inside entry hentry
    · rw [List.mem_singleton.mp hentry]
      exact hinside
  latent := by
    rw [hqueue, hset]
    intro entry hentry hne
    rcases List.mem_append.mp hentry with hentry | hentry
    · exact h.latent entry hentry hne
    · rw [List.mem_singleton.mp hentry] at hne
      exact absurd hzero hne
  inOrder := by
    intro key
    rw [hqueue, hset, List.pairwise_append]
    refine ⟨h.inOrder key, List.pairwise_singleton _ _, fun a _ b hb _ _ hcompleted => ?_⟩
    rw [List.mem_singleton.mp hb] at hcompleted
    exact absurd (h.completed _ hcompleted) (Nat.lt_irrefl _)

theorem acceptIo (h : Consistent c s) {header : EventHeader} (src : EventIo)
    (hsid : header.sid ∉ s.queue.map (·.2.header.sid)) :
    Consistent c (s.acceptIo c header src) := by
  unfold ParsedIoTraceEventHandler.acceptIo
  split
  · exact h
  · rename_i hinside
    dsimp only
    generalize ht : ParsedIoTraceEventHandler.touchDevice _ src.deviceId = t
    have hcore : t.core = s.core := ht ▸ core_touchDevice src.deviceId
    have ht' := h.congr hcore
    have hqueue : t.queue = s.queue := congrArg Prod.fst hcore
    rw [← hqueue] at hsid
    have hfree : ∀ event, ((t.emplace event).addMapping (ioKey src) t.allocated).sidMapping
        header.sid = none := fun _ => by_contra fun hne => hsid (ht'.sidMapped _ hne)
    rw [hfree]
    dsimp only
    refine ht'.cache rfl rfl ?_ ?_ rfl ht'.running rfl ?_ hsid
    · intro key
      change Function.update t.eventMapping (ioKey src) _ key = _
      by_cases heq : key = ioKey src
      · subst heq
        simp [emplace, Holds, parsedKey, ioKey]
      · have hother : (if ioKey src = key then [t.allocated] else []) = [] :=
          if_neg fun h => heq h.symm
        rw [Function.update_of_ne heq]
        simp only [Holds, Option.isSome_some, Bool.true_and, decide_eq_true_eq]
        exact (List.append_nil _).symm.trans (congrArg _ hother.symm)
    · intro sid hne
      change Function.update t.sidMapping header.sid _ sid ≠ none at hne
      by_cases heq : sid = header.sid
      · exact .inr heq
      · refine .inl ?_
        rwa [Function.update_of_ne heq] at hne
    · rintro io ⟨⟩
      simpa using hinside

/-- A change of cached events that stay in their places. -/
theorem change {s' : ParsedIoTraceEventHandler} (h : Consistent c s)
    (f : ℕ × ParsedEvent → ℕ × ParsedEvent) (more : List ℕ)
    (hsame : ∀ entry, (f entry).1 = entry.1 ∧ (f entry).2.header.sid = entry.2.header.sid ∧
      ∀ key, Holds key (f entry) = Holds key entry)
    (hcore : s'.core = (s.queue.map f, s.allocated, s.eventMapping, s.sidMapping,
      s.latencySet ++ more, s.thrown))
    (hmore : ∀ pointer ∈ more, pointer < s.allocated)
    (hinside : ∀ entry ∈ s.queue, ∀ io, (f entry).2.io = some io →
      isOutside c io.lba io.len = false)
    (hlatent : ∀ entry ∈ s.queue, (f entry).2.latency ≠ 0 → entry.1 ∈ s.latencySet ++ more)
    (hinOrder : ∀ key, s.queue.Pairwise fun a b => Holds key a = true → Holds key b = true →
      b.1 ∈ s.latencySet ++ more → a.1 ∈ s.latencySet ++ more) : Consistent c s' := by
  simp only [core, Prod.mk.injEq] at hcore
  obtain ⟨hqueue, hallocated, hmapping, hsids, hset, hthrown⟩ := hcore
  have haddresses : (s.queue.map f).map (·.1) = s.queue.map (·.1) := by
    rw [List.map_map]
    exact List.map_congr_left fun entry _ => (hsame entry).1
  have hsidsEq : (s.queue.map f).map (·.2.header.sid) = s.queue.map (·.2.header.sid) := by
    rw [List.map_map]
    exact List.map_congr_left fun entry _ => (hsame entry).2.1
  constructor
  · rw [hthrown, h.running]
  · rw [hqueue, haddresses]
    exact h.addresses
  · rw [hqueue, hallocated]
    intro entry hentry
    obtain ⟨entry, hmem, rfl⟩ := List.mem_map.mp hentry
    rw [(hsame entry).1]
    exact h.queued entry hmem
  · rw [hset, hallocated]
    intro pointer hpointer
    exact (List.mem_append.mp hpointer).elim (h.completed pointer) (hmore pointer)
  · rw [hqueue, hsidsEq]
    exact h.sids
  · intro key
    rw [hmapping, h.mapped, hqueue, List.filter_map, List.map_map]
    have hfilter : Holds key ∘ f = Holds key := funext fun entry => (hsame entry).2.2 key
    rw [hfilter]
    exact (List.map_congr_left fun entry _ => (hsame entry).1).symm
  · rw [hsids, hqueue, hsidsEq]
    exact h.sidMapped
  · rw [hqueue]
    intro entry hentry
    obtain ⟨entry, hmem, rfl⟩ := List.mem_map.mp hentry
    exact hinside entry hmem
  · rw [hqueue, hset]
    intro entry hentry hne
    obtain ⟨entry, hmem, rfl⟩ := List.mem_map.mp hentry
    rw [(hsame entry).1]
    exact hlatent entry hmem hne
  · intro key
    rw [hqueue, hset, List.pairwise_map]
    refine (hinOrder key).imp ?_
    intro a b hab
    simpa only [(hsame _).1, (hsame _).2.2] using hab

/-- A change of a cached event that is not about the request. -/
theorem update (h : Consistent c s) (pointer : ℕ) {f : ParsedEvent → ParsedEvent}
    (hf : ∀ event, (f event).io = event.io ∧ (f event).header = event.header ∧
      (f event).device.id = event.device.id) : Consistent c (s.update pointer f) := by
  have hio : ∀ entry : ℕ × ParsedEvent,
      (if entry.1 = pointer then (entry.1, f entry.2) else entry).2.io = entry.2.io := by
    intro entry
    split
    · exact (hf entry.2).1
    · rfl
  refine h.change (fun entry => if entry.1 = pointer then (entry.1, f entry.2) else entry) [] ?_
    (by simp [core, ParsedIoTraceEventHandler.update]) (by simp) ?_ ?_ ?_
  · intro entry
    split
    · obtain ⟨hio, hheader, hdevice⟩ := hf entry.2
      have hkey : parsedKey (f entry.2) = parsedKey entry.2 := by
        rw [parsedKey, hio, hdevice, parsedKey]
      refine ⟨rfl, by rw [hheader], fun key => ?_⟩
      show ((f entry.2).io.isSome && decide (parsedKey (f entry.2) = key)) = _
      rw [hio, hkey, Holds]
    · exact ⟨rfl, rfl, fun _ => rfl⟩
  · intro entry hentry io hentryio
    exact h.inside entry hentry io (hio entry ▸ hentryio)
  · intro entry hentry hne
    rw [List.append_nil]
    refine h.latent entry hentry ?_
    rwa [ParsedEvent.latency, hio entry] at hne
  · simpa only [List.append_nil] using h.inOrder

/-- A completion of the IO that is got. -/
theorem complete (h : Consistent c s) {header : EventHeader} {cmpl : EventIoCompletion}
    {entry : ℕ × ParsedEvent} (hget : s.get (completionKey cmpl) = some entry) :
    Consistent c { s.update entry.1 (ParsedIoTraceEventHandler.complete header cmpl) with
      latencySet := s.latencySet ++ [entry.1] } := by
  rw [h.get_eq] at hget
  have hmem := List.mem_of_find?_eq_some hget
  have hfound := List.find?_some hget
  simp only [Bool.and_eq_true, decide_eq_true_eq] at hfound
  refine h.change (fun e => if e.1 = entry.1 then
    (e.1, ParsedIoTraceEventHandler.complete header cmpl e.2) else e) [entry.1] ?_ rfl
    (by simpa using h.queued entry hmem) ?_ ?_ ?_
  · intro e
    split
    · refine ⟨rfl, rfl, fun key => ?_⟩
      cases hio : e.2.io <;>
        simp [Holds, parsedKey, ParsedIoTraceEventHandler.complete, hio]
    · exact ⟨rfl, rfl, fun _ => rfl⟩
  · intro e he io hio
    split at hio
    · obtain ⟨io', hio', rfl⟩ := Option.map_eq_some_iff.mp hio
      exact h.inside e he io' hio'
    · exact h.inside e he io hio
  · intro e he hne
    split at hne
    · rename_i heq
      exact List.mem_append_right _ (by simp [heq])
    · exact List.mem_append_left _ (h.latent e he hne)
  · intro key
    refine ((h.inOrder key).and (pairwise_of_find? h.addresses hget)).imp_of_mem ?_
    intro a b ha hb hab hakey hbkey hcompleted
    rcases List.mem_append.mp hcompleted with hcompleted | hcompleted
    · exact List.mem_append_left _ (hab.1 hakey hbkey hcompleted)
    · have heq := List.mem_singleton.mp hcompleted
      refine List.mem_append_left _ (h.latent a ha ?_)
      have hnot := hab.2 heq
      -- both are of the key of the completion
      have hsame : b = entry := List.inj_on_of_nodup_map h.addresses hb hmem heq
      have hkeys : completionKey cmpl = key :=
        (holds_iff.mp hfound.1).2.symm.trans (hsame ▸ (holds_iff.mp hbkey).2)
      rw [← hkeys] at hakey
      simpa [hakey] using hnot

theorem pushOutEvent (h : Consistent c s) : Consistent c (s.pushOutEvent c) := by
  unfold ParsedIoTraceEventHandler.pushOutEvent
  split
  · exact h
  · rename_i pointer event queue hqueue
    have haddresses := h.addresses
    have hsids := h.sids
    rw [hqueue] at haddresses hsids
    have hfirst : ∀ key, s.eventMapping key =
        (if Holds key (pointer, event) then [pointer] else []) ++
          (queue.filter (Holds key)).map (·.1) := by
      intro key
      rw [h.mapped, hqueue, List.filter_cons]
      split <;> simp_all
    refine ⟨h.running, (List.nodup_cons.mp haddresses).2, ?_, h.completed,
      (List.nodup_cons.mp hsids).2, ?_, ?_, ?_, ?_, ?_⟩
    · exact fun entry hentry => h.queued entry (hqueue ▸ List.mem_cons_of_mem _ hentry)
    · intro key
      change Function.update s.eventMapping (parsedKey event)
        ((s.eventMapping _).eraseP fun pointer =>
        (s.cached pointer).any fun e => e.header.sid = event.header.sid) key = _
      by_cases heq : key = parsedKey event
      · subst heq
        rw [Function.update_self, hfirst]
        by_cases hholds : Holds (parsedKey event) (pointer, event) = true
        · have hmem : (pointer, event) ∈ s.queue := by simp [hqueue]
          have hcached : s.cached pointer = some event := h.cached_eq hmem
          rw [if_pos hholds, List.singleton_append, List.eraseP_cons_of_pos (by simp [hcached])]
        · rw [if_neg hholds, List.nil_append, List.eraseP_of_forall_not]
          intro other hother
          obtain ⟨entry, hentry, rfl⟩ := List.mem_map.mp hother
          have hmem := List.mem_of_mem_filter hentry
          have hcached := h.cached_eq (hqueue ▸ List.mem_cons_of_mem _ hmem)
          have hne : entry.2.header.sid ≠ event.header.sid := fun hsid =>
            (List.nodup_cons.mp hsids).1 (List.mem_map.mpr ⟨entry, hmem, hsid⟩)
          simp [hcached, hne]
      · have hother : Holds key (pointer, event) ≠ true := fun hholds =>
          heq (holds_iff.mp hholds).2.symm
        rw [Function.update_of_ne heq, hfirst, if_neg hother, List.nil_append]
    · intro sid hne
      change Function.update s.sidMapping event.header.sid none sid ≠ none at hne
      have hsid : sid ≠ event.header.sid := by
        rintro rfl
        exact hne (Function.update_self ..)
      rw [Function.update_of_ne hsid] at hne
      have hmem := h.sidMapped sid hne
      rw [hqueue] at hmem
      exact (List.mem_cons.mp hmem).resolve_left hsid
    · exact fun entry hentry => h.inside entry (hqueue ▸ List.mem_cons_of_mem _ hentry)
    · exact fun entry hentry => h.latent entry (hqueue ▸ List.mem_cons_of_mem _ hentry)
    · exact fun key => (List.pairwise_cons.mp (hqueue ▸ h.inOrder key)).2

/-- Every event keeps the invariant, if no cached event has its sequence id. -/
theorem acceptEvent (h : Consistent c s) {event : Event}
    (hsid : event.header.sid ∉ s.queue.map (·.2.header.sid)) :
    Consistent c (s.acceptEvent c event) := by
  have hnoted := h.congr (core_noteOffsets event.header)
  have hqueue : (s.noteOffsets event.header).queue = s.queue :=
    congrArg Prod.fst (core_noteOffsets event.header)
  rw [← hqueue] at hsid
  unfold ParsedIoTraceEventHandler.acceptEvent
  dsimp only
  generalize s.noteOffsets event.header = t at hnoted hqueue hsid
  split
  · exact hnoted.congr rfl
  · exact hnoted.acceptIo _ hsid
  · split
    · exact hnoted
    · unfold acceptIoCompletion
      split
      · exact hnoted.congr rfl
      · rename_i pointer event' hget
        split
        · exact hnoted.congr rfl
        · exact (hnoted.complete hget).congr rfl
  · rename_i src _
    unfold acceptFilesystemMeta
    split
    · exact hnoted
    · rename_i pointer _
      refine (hnoted.update pointer (f := accessFile src) fun event => ⟨rfl, rfl, rfl⟩).congr ?_
      dsimp only
      split
      · rfl
      · exact core_touchDevice _
  · rename_i src _
    have htouched := hnoted.congr (core_touchDevice src.fileId.partitionId)
    have hsame : (t.touchDevice src.fileId.partitionId).queue = t.queue :=
      congrArg Prod.fst (core_touchDevice src.fileId.partitionId)
    refine htouched.cache rfl rfl (fun key => ?_) (fun sid hne => .inl hne) rfl htouched.running
      rfl (fun io hio => by cases hio) (hsame ▸ hsid)
    exact (List.append_nil _).symm
  · exact hnoted.congr rfl
  · exact hnoted

theorem handleEvent (h : Consistent c s) {op : Event × Bool}
    (hsid : op.1.header.sid ∉ s.queue.map (·.2.header.sid)) :
    Consistent c (s.handleEvent c op) := by
  have haccepted := h.acceptEvent hsid
  simp only [ParsedIoTraceEventHandler.handleEvent, h.running, Bool.false_eq_true, if_false]
  split
  · exact flushEvents_induction (fun s' hs' => hs'.pushOutEvent) op.2 haccepted
  · exact haccepted

end Consistent

/-! ### Sequence ids -/

/-- No cached event has the sequence id of the next one. -/
def Fresh (op : Event × Bool) (s : ParsedIoTraceEventHandler) : Prop :=
  op.1.header.sid ∉ s.queue.map (·.2.header.sid)

theorem queue_touchDevice (id : ℕ) : (s.touchDevice id).queue = s.queue :=
  congrArg Prod.fst (core_touchDevice id)

theorem sids_update (pointer : ℕ) {f : ParsedEvent → ParsedEvent}
    (hf : ∀ event, (f event).header = event.header) :
    (s.update pointer f).queue.map (·.2.header.sid) = s.queue.map (·.2.header.sid) := by
  rw [update, List.map_map]
  refine List.map_congr_left fun entry _ => ?_
  rw [Function.comp_apply]
  split
  · exact congrArg EventHeader.sid (hf entry.2)
  · rfl

theorem sids_acceptEvent {event : Event} {sid : ℕ}
    (h : sid ∈ (s.acceptEvent c event).queue.map (·.2.header.sid)) :
    sid ∈ s.queue.map (·.2.header.sid) ∨ sid = event.header.sid := by
  have hqueue : (s.noteOffsets event.header).queue = s.queue :=
    congrArg Prod.fst (core_noteOffsets event.header)
  rw [← hqueue]
  unfold acceptEvent at h
  dsimp only at h
  generalize s.noteOffsets event.header = t at h
  have hcached : ∀ (queue : List (ℕ × ParsedEvent)) (entry : ℕ × ParsedEvent), queue = t.queue →
      entry.2.header = event.header → sid ∈ (queue ++ [entry]).map (·.2.header.sid) →
      sid ∈ t.queue.map (·.2.header.sid) ∨ sid = event.header.sid := by
    intro queue entry hqueue hheader hmem
    rw [List.map_append, hqueue, List.map_singleton, hheader] at hmem
    exact (List.mem_append.mp hmem).imp_right List.mem_singleton.mp
  split at h
  · exact .inl h
  · unfold acceptIo at h
    split at h
    · exact .inl h
    · rename_i io _ _
      dsimp only at h
      generalize htouched : touchDevice _ io.deviceId = t' at h
      have hqueue : t'.queue = t.queue := htouched ▸ queue_touchDevice _
      split at h <;> exact hcached _ _ hqueue rfl h
  · split at h
    · exact .inl h
    · unfold acceptIoCompletion at h
      split at h
      · exact .inl h
      · split at h
        · exact .inl h
        · rename_i cmpl _ _ _ pointer _ _ _
          refine .inl ?_
          rw [← sids_update (s := t) pointer (f := complete event.header cmpl) fun _ => rfl]
          exact h
  · unfold acceptFilesystemMeta at h
    split at h
    · exact .inl h
    · rename_i src _ _ pointer _
      have hupdated := sids_update (s := t) pointer (f := accessFile src) fun _ => rfl
      rw [← hupdated]
      dsimp only at h
      split at h
      · exact .inl h
      · exact .inl (queue_touchDevice (s := t.update pointer (accessFile src)) _ ▸ h)
  · exact hcached _ _ (queue_touchDevice _) rfl h
  · exact .inl h
  · exact .inl h

theorem sids_handleEvent {op : Event × Bool} {sid : ℕ}
    (h : sid ∈ (s.handleEvent c op).queue.map (·.2.header.sid)) :
    sid ∈ s.queue.map (·.2.header.sid) ∨ sid = op.1.header.sid := by
  unfold handleEvent at h
  split at h
  · exact .inl h
  · dsimp only at h
    split at h
    · refine sids_acceptEvent (c := c) ?_
      revert h
      refine flushEvents_induction (P := fun s' => sid ∈ s'.queue.map (·.2.header.sid) → _) ?_
        op.2 id
      intro s' hs' hmem
      apply hs'
      unfold pushOutEvent at hmem
      split at hmem
      · exact hmem
      · rename_i hqueue
        rw [hqueue]
        exact List.mem_cons_of_mem _ hmem
    · exact sids_acceptEvent h

end ParsedIoTraceEventHandler

end Octf.Parser.v0
