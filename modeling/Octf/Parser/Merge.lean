import Octf.Foundation.QueueMerge
import Octf.Parser.TraceFileParser

/-! The parser as a merge of its queues: what the set of next events holds, step by step,
and when every event of every file is delivered. -/
namespace Octf.Parser
open Foundation Foundation.Queues

namespace Event

def sid (e : Event) : ℕ := e.header.sid

end Event

namespace TraceFileParser

/-- The heads of the queues with their queue numbers, the first queue being `queue`. -/
def entries : (queue : ℕ) → List (List Event) → List EventInfo
  | _, [] => []
  | queue, [] :: queues => entries (queue + 1) queues
  | queue, (event :: _) :: queues => ⟨queue, event⟩ :: entries (queue + 1) queues

variable {queue : ℕ} {queues before after : List (List Event)} {rest : List Event}
  {p p' : TraceFileParser}

theorem entries_append : entries queue (before ++ after) =
    entries queue before ++ entries (queue + before.length) after := by
  induction before generalizing queue with
  | nil => rfl
  | cons q before ih =>
    have hshift : queue + 1 + before.length = queue + (q :: before).length := by
      rw [List.length_cons]
      omega
    cases q with
    | nil => rw [List.cons_append, entries, ih, entries, hshift]
    | cons event q => rw [List.cons_append, entries, ih, entries, hshift, List.cons_append]

theorem entries_map_event (queue : ℕ) (queues : List (List Event)) :
    (entries queue queues).map EventInfo.event = heads queues := by
  induction queues generalizing queue with
  | nil => rfl
  | cons q queues ih =>
    cases q with
    | nil => exact ih (queue + 1)
    | cons event q => rw [entries, List.map_cons, ih, heads_cons_cons]

theorem entries_map_sid (queue : ℕ) (queues : List (List Event)) :
    (entries queue queues).map (fun e => e.event.sid) = (heads queues).map Event.sid := by
  rw [← entries_map_event queue, List.map_map]
  rfl

/-- An entry stands for a queue whose head it is. -/
theorem mem_entries {e : EventInfo} (h : e ∈ entries queue queues) :
    ∃ before rest after, queues = before ++ (e.event :: rest) :: after ∧
      e.queue = queue + before.length := by
  induction queues generalizing queue with
  | nil => exact absurd h List.not_mem_nil
  | cons q queues ih =>
    have htail : e ∈ entries (queue + 1) queues →
        ∃ before rest after, q :: queues = before ++ (e.event :: rest) :: after ∧
          e.queue = queue + before.length := by
      intro hmem
      obtain ⟨before, rest, after, rfl, hqueue⟩ := ih hmem
      exact ⟨q :: before, rest, after, rfl, by rw [hqueue, List.length_cons]; omega⟩
    cases q with
    | nil => exact htail h
    | cons event q =>
      rcases List.mem_cons.mp h with rfl | h
      · exact ⟨[], q, queues, rfl, rfl⟩
      · exact htail h

theorem entries_eq_nil (h : entries queue queues = []) : ∀ q ∈ queues, q = [] := by
  induction queues generalizing queue with
  | nil => simp
  | cons q queues ih =>
    cases q with
    | nil =>
      intro r hr
      rcases List.mem_cons.mp hr with rfl | hr
      · rfl
      · exact ih h r hr
    | cons event q => exact absurd h (List.cons_ne_nil _ _)

theorem flatten_length (queue : ℕ) (queues : List (List Event)) : queues.flatten.length =
    (entries queue queues).length + (queues.map List.tail).flatten.length := by
  induction queues generalizing queue with
  | nil => rfl
  | cons q queues ih =>
    have hrest := ih (queue + 1)
    cases q with
    | nil => exact hrest
    | cons event q =>
      simp only [List.flatten_cons, List.length_append, List.length_cons, List.map_cons,
        List.tail_cons, entries] at hrest ⊢
      omega

/-- The events that the parser still has. -/
def size (p : TraceFileParser) : ℕ := p.events.length + p.readers.flatten.length

/-- The parser holds the queues: their heads in the set, the rest in the readers. -/
structure Holds (p : TraceFileParser) (queues : List (List Event)) : Prop where
  readers : p.readers = queues.map List.tail
  events : p.events.Perm (entries 0 queues)
  sorted : p.events.Pairwise fun a b => a.event.sid < b.event.sid

namespace Holds

theorem distinct (h : Holds p queues) : HeadsDistinct Event.sid queues := by
  unfold HeadsDistinct
  rw [← entries_map_sid 0]
  apply ((h.events.map fun e => e.event.sid).nodup_iff).mp
  exact List.pairwise_map.mpr (h.sorted.imp fun hlt => hlt.ne)

theorem nil_of_events (h : Holds p queues) (hevents : p.events = []) : ∀ q ∈ queues, q = [] := by
  have hnil : entries 0 queues = [] := by
    rw [← List.perm_nil]
    exact h.events.symm.trans (by rw [hevents])
  exact entries_eq_nil hnil

/-- The first event is the head of its queue and the least head; the others are the set's other
events. -/
theorem first (h : Holds p queues) {e : EventInfo} {events : List EventInfo}
    (hevents : p.events = e :: events) :
    ∃ before rest after, queues = before ++ (e.event :: rest) :: after ∧
      e.queue = before.length ∧ (∀ y ∈ heads queues, e.event.sid ≤ y.sid) ∧
      events.Perm (entries 0 before ++ entries (before.length + 1) after) := by
  have hperm := h.events
  have hsorted := h.sorted
  rw [hevents] at hperm hsorted
  obtain ⟨before, rest, after, rfl, hqueue⟩ :=
    mem_entries (hperm.mem_iff.mp (List.mem_cons_self ..))
  rw [Nat.zero_add] at hqueue
  refine ⟨before, rest, after, rfl, hqueue, ?_, ?_⟩
  · intro y hy
    rw [← entries_map_event 0] at hy
    obtain ⟨a, ha, rfl⟩ := List.mem_map.mp hy
    rcases List.mem_cons.mp (hperm.mem_iff.mpr ha) with rfl | ha
    · exact le_rfl
    · exact ((List.pairwise_cons.mp hsorted).1 a ha).le
  · rw [entries_append, Nat.zero_add, entries] at hperm
    have hsplit : (⟨before.length, e.event⟩ : EventInfo) = e := by rw [← hqueue]
    rw [hsplit] at hperm
    exact (hperm.trans List.perm_middle).cons_inv

theorem isFinished_iff (h : Holds p queues) : p.isFinished = true ↔ ∀ q ∈ queues, q = [] := by
  unfold isFinished
  rw [Bool.and_eq_true, List.isEmpty_iff]
  constructor
  · exact fun hdone => h.nil_of_events hdone.2
  · intro hnil
    constructor
    · rw [h.readers, List.all_map, List.all_eq_true]
      intro q hq
      rw [hnil q hq]
      rfl
    · cases hevents : p.events with
      | nil => rfl
      | cons e events =>
        obtain ⟨before, rest, after, rfl, -⟩ := h.first hevents
        exact absurd (hnil (e.event :: rest) (by simp)) (List.cons_ne_nil _ _)

/-- What a parser that is not finished delivers: the smallest head. Then it holds the other
events, unless the next head of that queue ties with another one; that event is lost. -/
theorem parseTraceEvent (h : Holds p queues) (hnot : ¬ ∀ q ∈ queues, q = []) :
    ∃ before x rest after p', queues = before ++ (x :: rest) :: after ∧
      (∀ y ∈ heads queues, x.sid ≤ y.sid) ∧ p.parseTraceEvent = .ok (x, p') ∧
      (HeadsDistinct Event.sid (before ++ rest :: after) → Holds p' (before ++ rest :: after)) ∧
      (¬ HeadsDistinct Event.sid (before ++ rest :: after) →
        p'.size + 2 ≤ queues.flatten.length) := by
  cases hevents : p.events with
  | nil => exact absurd (h.nil_of_events hevents) hnot
  | cons e events =>
    obtain ⟨before, rest, after, rfl, hqueue, hmin, hothers⟩ := h.first hevents
    have htail : events.Pairwise fun a b => a.event.sid < b.event.sid :=
      (List.pairwise_cons.mp (hevents ▸ h.sorted)).2
    have hget : p.readers[e.queue]? = some rest := by
      rw [h.readers, hqueue, List.getElem?_map, List.getElem?_append_right le_rfl, Nat.sub_self]
      rfl
    cases rest with
    | nil =>
      have hholds : Holds ⟨p.readers, events⟩ (before ++ [] :: after) := by
        constructor
        · rw [h.readers]
          simp
        · rw [entries_append, Nat.zero_add, entries]
          exact hothers
        · exact htail
      refine ⟨before, e.event, [], after, ⟨p.readers, events⟩, rfl, hmin, ?_, fun _ => hholds,
        fun htie => absurd hholds.distinct htie⟩
      simp only [TraceFileParser.parseTraceEvent, hevents, hget]
    | cons y rest =>
      have hreaders : p.readers.set e.queue rest = (before ++ (y :: rest) :: after).map
        List.tail := by
        rw [h.readers, hqueue, List.map_append, List.map_append,
          List.set_append_right _ _ (by simp)]
        simp
      have hentries : (⟨e.queue, y⟩ :: events : List EventInfo).Perm
          (entries 0 (before ++ (y :: rest) :: after)) := by
        rw [entries_append, Nat.zero_add, entries, hqueue]
        exact (hothers.cons _).trans List.perm_middle.symm
      have hdistinct_iff : HeadsDistinct Event.sid (before ++ (y :: rest) :: after) ↔
          ∀ a ∈ events, a.event.sid ≠ y.sid := by
        unfold HeadsDistinct
        rw [← entries_map_sid 0, ← (hentries.map fun e => e.event.sid).nodup_iff,
          List.map_cons, List.nodup_cons]
        have hnodup : (events.map fun e => e.event.sid).Nodup :=
          List.pairwise_map.mpr (htail.imp fun hlt => hlt.ne)
        simp only [hnodup, and_true, List.mem_map, not_exists, not_and, ne_eq]
      refine ⟨before, e.event, y :: rest, after, ⟨p.readers.set e.queue rest,
        OrderedSet.insert EventInfo.compare ⟨e.queue, y⟩ events⟩, rfl, hmin, ?_, ?_, ?_⟩
      · simp only [TraceFileParser.parseTraceEvent, hevents, hget]
      · intro hdistinct
        obtain ⟨hinsert, hinsert'⟩ :=
          OrderedSet.insert_byKey (fun e : EventInfo => e.event.sid) (x := ⟨e.queue, y⟩) htail
             (hdistinct_iff.mp hdistinct)
        exact ⟨hreaders, hinsert.trans hentries, hinsert'⟩
      · intro htie
        have hold : ∃ a ∈ events, a.event.sid = y.sid := by
          by_contra hnone
          exact htie (hdistinct_iff.mpr fun a ha heq => hnone ⟨a, ha, heq⟩)
        have hinsert : OrderedSet.insert EventInfo.compare ⟨e.queue, y⟩ events = events :=
          OrderedSet.insert_byKey_of_mem (fun e : EventInfo => e.event.sid) htail hold
        have hlen := hentries.length_eq
        have htotal := flatten_length 0 (before ++ (y :: rest) :: after)
        simp only [size, hinsert, hreaders, List.length_cons, List.flatten_append,
          List.flatten_cons, List.length_append] at hlen htotal ⊢
        omega

end Holds

end TraceFileParser

end Octf.Parser
