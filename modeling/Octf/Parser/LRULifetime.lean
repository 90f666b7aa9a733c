import Octf.Parser.LRURefinement
import Mathlib.Data.Finset.Card
import Mathlib.Data.Finset.Dedup

/-! The LRU builder with its accesses to nodes checked: the map owns the nodes, the list only
points to them. -/
namespace Octf.Parser
open Foundation

inductive Fault where
  /-- A null pointer is followed. -/
  | null
  /-- The node is no longer in the map. -/
  | dead
  deriving DecidableEq

/-- Follow a pointer to a node. -/
def deref (live : ℕ → Bool) : Option ℕ → Except Fault ℕ
  | none => .error .null
  | some node => if live node then .ok node else .error .dead

namespace LRUList

/-- The first half of `LRUList::pop`: the ends of the list. -/
def withoutEndChecked (live : ℕ → Bool) (node : ℕ) (l : LRUList) : Except Fault LRUList := do
  let l ← if l.tail = some node then do
      let tail ← deref live l.tail
      .ok { l with tail := (l.memory tail).prev }
    else .ok l
  if l.head = some node then do
    let head ← deref live l.head
    .ok { l with head := (l.memory head).next }
  else .ok l

/-- The second half of `LRUList::pop`: the neighbours are linked with each other. -/
def bridgeChecked (live : ℕ → Bool) (node : ℕ) (l : LRUList) : Except Fault LRUList := do
  let node ← deref live (some node)
  let l ← match (l.memory node).prev with
    | some prev => do
      let prev ← deref live (some prev)
      .ok (l.setNext prev (l.memory node).next)
    | none => .ok l
  match (l.memory node).next with
  | some next => do
    let next ← deref live (some next)
    .ok (l.setPrev next (l.memory node).prev)
  | none => .ok l

/-- `LRUList::pop` -/
def popChecked (live : ℕ → Bool) (node : ℕ) (l : LRUList) : Except Fault LRUList :=
  match l.head with
  | none => .ok l
  | some _ => do
    let l ← l.withoutEndChecked live node
    let l ← l.bridgeChecked live node
    .ok ((l.setPrev node none).setNext node none)

/-- `LRUList::push` -/
def pushChecked (live : ℕ → Bool) (nnode : ℕ) (l : LRUList) : Except Fault LRUList :=
  match l.head with
  | none => .ok { l with head := some nnode, tail := some nnode }
  | some _ => do
    let tail ← deref live l.tail
    let l := l.setNext tail (some nnode)
    let nnode ← deref live (some nnode)
    let l := l.setPrev nnode (some tail)
    .ok { l with tail := (l.memory tail).next }

/-- The destructor: the first turns of its loop. -/
def release (live : ℕ → Bool) : (turns : ℕ) → LRUList → Except Fault LRUList
  | 0, l => .ok l
  | turns + 1, l =>
    match l.head with
    | none => .ok l
    | some head => do
      let l ← l.popChecked live head
      l.release live turns

end LRUList

namespace LRUExtensionBuilder

/-- The node is in the map. -/
def live (s : LRUExtensionBuilder) (node : ℕ) : Bool :=
  s.lookup.entries.any fun entry => decide (entry.2 = node)

def evictChecked (s : LRUExtensionBuilder) : Except Fault LRUExtensionBuilder := do
  let lru_node ← deref s.live s.lru.head
  let s := { s with lookup := s.lookup.erase (s.lru.memory lru_node).lba }
  let lru ← s.lru.popChecked s.live lru_node
  .ok { s with lru := lru }

def pushChecked (lba : ℕ) (s : LRUExtensionBuilder) : Except Fault LRUExtensionBuilder :=
  match s.lookup.lookup lba with
  | some node => do
    let lru ← s.lru.popChecked s.live node
    let lru ← lru.pushChecked s.live node
    .ok { s with lru := lru }
  | none => do
    let s ← if s.cacheLines ≤ s.lookup.entries.length then s.evictChecked else .ok s
    let node := s.made
    let s := { s with
      lookup := s.lookup.insert lba node
      made := s.made + 1
      lru := { s.lru with memory := Function.update s.lru.memory node ⟨lba, none, none⟩ } }
    let lru ← s.lru.pushChecked s.live node
    .ok { s with lru := lru }

/-- The loop over the lines of a request. -/
def accessChecked : (lines : List ℕ) → Bool → LRUExtensionBuilder →
    Except Fault (Bool × LRUExtensionBuilder)
  | [], hit, s => .ok (hit, s)
  | line :: lines, hit, s => do
    let hit := hit && s.get line
    let s ← s.pushChecked line
    s.accessChecked lines hit

/-- The lines that the handler of an event goes through. -/
def requestedLines (event : ParsedEvent) : List ℕ :=
  match event.io with
  | none => []
  | some io =>
    if isEventValid event then
      let firstCacheLine := sectorToCacheLine io.lba
      let lastCacheLine := sectorToCacheLine (sub64 (add64 io.lba io.len) 1)
      List.range' firstCacheLine (lastCacheLine + 1 - firstCacheLine)
    else []

/-- The build step event handler. -/
def buildStepChecked (event : ParsedEvent) (s : LRUExtensionBuilder) :
    Except Fault LRUExtensionBuilder :=
  if isEventValid event then do
    let (hit, s) ← s.accessChecked (requestedLines event) true
    let noRq := add64 s.noRq 1
    let noHit := if hit then add64 s.noHit 1 else s.noHit
    .ok { s with noRq := noRq, noHit := noHit, result := some ⟨hit, mul64 noHit 100 / noRq⟩ }
  else .ok { s with result := none }

/-- The events of a trace, and the first turns of the destructor behind them. -/
def lifetime (events : List ParsedEvent) (turns : ℕ) (s : LRUExtensionBuilder) :
    Except Fault LRUList := do
  let s ← events.foldlM (fun s event => s.buildStepChecked event) s
  s.lru.release s.live turns

end LRUExtensionBuilder

/-! ### Accesses to live nodes go through -/

theorem bind_ok {ε α β : Type} (a : α) (f : α → Except ε β) : (Except.ok a >>= f) = f a := rfl

theorem deref_live {live : ℕ → Bool} {node : ℕ} (h : live node = true) :
    deref live (some node) = .ok node := if_pos h

theorem deref_dead {live : ℕ → Bool} {node : ℕ} (h : live node = false) :
    deref live (some node) = .error .dead := if_neg (by simp [h])

namespace LRUList

variable {live : ℕ → Bool} {l : LRUList} {node x : ℕ} {nodes xs ys : List ℕ}

theorem withoutEndChecked_eq (hnode : live node = true) :
    l.withoutEndChecked live node = .ok (l.withoutEnd node) := by
  have hnode' := deref_live hnode
  unfold withoutEndChecked withoutEnd
  by_cases htail : l.tail = some node <;> by_cases hhead : l.head = some node <;>
    simp [htail, hhead, hnode', bind_ok]

theorem bridgeChecked_eq (hnode : live node = true)
    (hprev : ∀ prev, (l.memory node).prev = some prev → live prev = true)
    (hnext : ∀ next, (l.memory node).next = some next → live next = true) :
    l.bridgeChecked live node = .ok (l.bridge node) := by
  -- linking the node before leaves the pointer to the node behind
  have hsame : ∀ prev, ((l.setNext prev (l.memory node).next).memory node).next =
      (l.memory node).next := by
    intro prev
    by_cases hself : node = prev
    · subst hself
      simp [setNext]
    · simp [setNext, Function.update_of_ne hself]
  unfold bridgeChecked bridge
  rw [deref_live hnode, bind_ok]
  cases hp : (l.memory node).prev with
  | none =>
    simp only [bind_ok]
    cases hn : (l.memory node).next with
    | none => rfl
    | some next => simp only [deref_live (hnext next hn), bind_ok, hp]
  | some prev =>
    simp only [deref_live (hprev prev hp), bind_ok]
    cases hn : ((l.setNext prev (l.memory node).next).memory node).next with
    | none => rfl
    | some next => simp only [deref_live (hnext next (hsame prev ▸ hn)), bind_ok]

theorem popChecked_eq (hnode : live node = true)
    (hprev : ∀ prev, (l.memory node).prev = some prev → live prev = true)
    (hnext : ∀ next, (l.memory node).next = some next → live next = true) :
    l.popChecked live node = .ok (l.pop node) := by
  cases hhead : l.head with
  | none => simp only [popChecked, pop, hhead]
  | some head =>
    have hmemory := memory_withoutEnd (l := l) (x := node)
    rw [pop_eq hhead]
    simp only [popChecked, hhead, withoutEndChecked_eq hnode, bind_ok]
    rw [bridgeChecked_eq hnode (by rwa [hmemory]) (by rwa [hmemory]), bind_ok]

/-- The nodes of a list can be popped while they are live. -/
theorem Linked.popChecked (h : l.Linked (xs ++ x :: ys))
    (hlive : ∀ node ∈ xs ++ x :: ys, live node = true) :
    l.popChecked live x = .ok (l.pop x) := by
  have hx := h.chained.linked xs x ys rfl
  have hprev : (l.memory x).prev = xs.getLast? := congrArg Links.prev hx
  have hnext : (l.memory x).next = ys.head? := congrArg Links.next hx
  refine popChecked_eq (hlive x (by simp)) (fun prev hp => hlive prev ?_)
    (fun next hn => hlive next ?_)
  · exact List.mem_append_left _ (List.mem_of_getLast? (hprev ▸ hp))
  · exact List.mem_append_right _ (List.mem_cons_of_mem _ (List.mem_of_head? (hnext ▸ hn)))

/-- A dead head cannot be popped. -/
theorem popChecked_dead (hhead : l.head = some node) (hdead : live node = false) :
    l.popChecked live node = .error .dead := by
  simp only [LRUList.popChecked, hhead]
  unfold withoutEndChecked
  by_cases htail : l.tail = some node
  · simp only [htail, if_true, deref_dead hdead]
    rfl
  · simp only [htail, hhead, if_true, if_false, bind_ok, deref_dead hdead]
    rfl

/-- A live node can be pushed behind live nodes. -/
theorem Linked.pushChecked (h : l.Linked nodes) (hx : live x = true)
    (hlive : ∀ node ∈ nodes, live node = true) : l.pushChecked live x = .ok (l.push x) := by
  cases hlast : nodes.getLast? with
  | none =>
    obtain rfl := List.getLast?_eq_none_iff.mp hlast
    have hhead : l.head = none := h.head
    simp only [LRUList.pushChecked, LRUList.push, hhead]
  | some last =>
    have htail : l.tail = some last := h.tail.trans hlast
    cases hhead : l.head with
    | none => simp only [LRUList.pushChecked, LRUList.push, hhead]
    | some head =>
      have hlast' := deref_live (hlive last (List.mem_of_getLast? hlast))
      simp only [LRUList.pushChecked, LRUList.push, hhead, htail, hlast', deref_live hx, bind_ok]

/-- The destructor visits live nodes only. -/
theorem Linked.release (h : l.Linked nodes) (hlive : ∀ node ∈ nodes, live node = true)
    (turns : ℕ) : ∃ l', l.release live turns = .ok l' := by
  induction turns generalizing l nodes with
  | zero => exact ⟨l, rfl⟩
  | succ turns ih =>
    cases nodes with
    | nil =>
      have hhead : l.head = none := h.head
      exact ⟨l, by simp only [LRUList.release, hhead]⟩
    | cons node nodes =>
      have hhead : l.head = some node := h.head
      have hfirst : l.Linked ([] ++ node :: nodes) := h
      obtain ⟨l', hl'⟩ := ih hfirst.pop.1 fun n hn => hlive n (List.mem_cons_of_mem _ hn)
      refine ⟨l', ?_⟩
      simp only [LRUList.release, hhead, hfirst.popChecked hlive, bind_ok]
      exact hl'

end LRUList

/-! ### A builder is safe while nothing is evicted -/

namespace LRUExtensionBuilder

variable {s s' : LRUExtensionBuilder} {nodes lines : List ℕ} {line node : ℕ}

theorem live_iff : s.live node = true ↔ ∃ line, s.lookup.lookup line = some node := by
  unfold live
  rw [List.any_eq_true]
  constructor
  · rintro ⟨⟨line, other⟩, hentry, heq⟩
    obtain rfl : other = node := of_decide_eq_true heq
    exact ⟨line, AList.mem_lookup_iff.mpr hentry⟩
  · rintro ⟨line, hline⟩
    exact ⟨⟨line, node⟩, AList.mem_lookup_iff.mp hline, decide_eq_true rfl⟩

namespace Represents

/-- The live nodes are those of the list. -/
theorem live (h : s.Represents nodes lines) : s.live node = true ↔ node ∈ nodes := by
  rw [live_iff]
  exact ⟨fun ⟨line, hline⟩ => ((h.found line node).mp hline).1,
    fun hnode => ⟨_, (h.found _ node).mpr ⟨hnode, rfl⟩⟩⟩

theorem release (h : s.Represents nodes lines) (turns : ℕ) :
    ∃ l, s.lru.release s.live turns = .ok l :=
  h.linked.release (fun _ hnode => h.live.mpr hnode) turns

/-- A line that is there, or for which there is room, is pushed. -/
theorem pushChecked (h : s.Represents nodes lines)
    (hroom : line ∈ lines ∨ lines.length < s.cacheLines) :
    s.pushChecked line = .ok (s.push line) := by
  cases hfound : s.lookup.lookup line with
  | some node =>
    have hnode := (h.found line node).mp hfound
    obtain ⟨xs, ys, rfl⟩ := List.append_of_mem hnode.1
    have hlive : ∀ n ∈ xs ++ node :: ys, s.live n = true := fun n hn => h.live.mpr hn
    have hnodup := h.linked.chained.nodup
    have hfresh : node ∉ xs ++ ys := by
      rw [List.nodup_middle] at hnodup
      exact (List.nodup_cons.mp hnodup).1
    have hpush := h.linked.pop.1.pushChecked (hlive node (by simp)) fun n hn =>
      hlive n ((List.sublist_cons_self node ys).append_left xs |>.subset hn)
    simp only [LRUExtensionBuilder.pushChecked, LRUExtensionBuilder.push, hfound,
      h.linked.popChecked hlive, bind_ok, hpush]
  | none =>
    have hline : line ∉ lines := by
      rw [← h.mem_lookup, ← AList.lookup_isSome, hfound]
      exact Bool.false_ne_true
    have hfree : ¬ s.cacheLines ≤ s.lookup.entries.length := by
      rw [h.size]
      exact not_le.mpr (hroom.resolve_left hline)
    have hinsert := h.insert hline (hroom.resolve_left hline)
    have hlinked : LRUList.Linked { s.lru with
        memory := Function.update s.lru.memory s.made ⟨line, none, none⟩ } nodes :=
      ⟨h.linked.chained.congr fun n hn => by
        simp only [LRUList.links, Function.update_of_ne (h.made n hn).ne], h.linked.head,
        h.linked.tail⟩
    have hlive : ∀ n ∈ nodes ++ [s.made], LRUExtensionBuilder.live { s with
        lookup := s.lookup.insert line s.made
        made := s.made + 1
        lru := { s.lru with
          memory := Function.update s.lru.memory s.made ⟨line, none, none⟩ } } n = true :=
      fun n hn => hinsert.live.mpr hn
    have hpush := hlinked.pushChecked (hlive s.made (by simp)) fun n hn =>
      hlive n (List.mem_append_left _ hn)
    simp only [LRUExtensionBuilder.pushChecked, LRUExtensionBuilder.push, hfound, if_neg hfree,
      bind_ok, hpush]

/-- Eviction follows a null pointer, or the pointer to the node it has just erased. -/
theorem evictChecked (h : s.Represents nodes lines) : ∃ fault, s.evictChecked = .error fault := by
  cases nodes with
  | nil =>
    have hhead : s.lru.head = none := h.linked.head
    refine ⟨.null, ?_⟩
    simp only [LRUExtensionBuilder.evictChecked, hhead]
    rfl
  | cons node nodes =>
    have hhead : s.lru.head = some node := h.linked.head
    have hlive := deref_live (h.live.mpr (List.mem_cons_self (a := node) (l := nodes)))
    have hdead : LRUExtensionBuilder.live { s with
        lookup := s.lookup.erase (s.lru.memory node).lba } node = false := by
      rw [Bool.eq_false_iff, ne_eq, live_iff]
      rintro ⟨line, hline⟩
      by_cases hsame : line = (s.lru.memory node).lba
      · subst hsame
        rw [AList.lookup_erase] at hline
        cases hline
      · rw [AList.lookup_erase_ne hsame, h.found] at hline
        exact hsame hline.2.symm
    refine ⟨.dead, ?_⟩
    simp only [LRUExtensionBuilder.evictChecked, hhead, hlive, bind_ok,
      LRUList.popChecked_dead hhead hdead]
    rfl

theorem pushChecked_full (h : s.Represents nodes lines) (hline : line ∉ lines)
    (hfull : s.cacheLines ≤ lines.length) : ∃ fault, s.pushChecked line = .error fault := by
  have hfound : s.lookup.lookup line = none := by
    rw [AList.lookup_eq_none, h.mem_lookup]
    exact hline
  obtain ⟨fault, hevict⟩ := h.evictChecked
  refine ⟨fault, ?_⟩
  simp only [LRUExtensionBuilder.pushChecked, hfound, h.size, if_pos hfull, hevict]
  rfl

end Represents

/-- A list that is used where no line has to go holds the line besides the ones before. -/
theorem toFinset_touch {capacity : ℕ} (hroom : line ∈ lines ∨ lines.length < capacity) :
    (ListLru.touch capacity lines line).toFinset = insert line lines.toFinset := by
  unfold ListLru.touch
  ext other
  by_cases hline : line ∈ lines
  · by_cases hother : other = line
    · simp [hline, hother]
    · simp [hline, hother, List.mem_erase_of_ne hother]
  · have hfree : ¬ capacity ≤ lines.length := not_le.mpr (hroom.resolve_left hline)
    simp [hline, hfree]

/-- The builder has served a request without an eviction. -/
structure Served (s s' : LRUExtensionBuilder) (lines request : List ℕ) : Prop where
  cacheLines : s'.cacheLines = s.cacheLines
  represents : ∃ nodes lines', s'.Represents nodes lines' ∧
    lines'.toFinset = (lines ++ request).toFinset

theorem Represents.room_of_fits (h : s.Represents nodes lines) {request : List ℕ}
    (hfits : (lines ++ line :: request).toFinset.card ≤ s.cacheLines) :
    line ∈ lines ∨ lines.length < s.cacheLines := by
  by_cases hline : line ∈ lines
  · exact Or.inl hline
  · right
    have hsub : Insert.insert line lines.toFinset ⊆ (lines ++ line :: request).toFinset := by
      intro other
      simp only [Finset.mem_insert, List.mem_toFinset, List.mem_append, List.mem_cons]
      tauto
    have hcard := Finset.card_le_card hsub
    rw [Finset.card_insert_of_notMem (by simpa using hline),
      List.toFinset_card_of_nodup h.nodup] at hcard
    omega

/-- The next line is used, and the other lines are still to be served. -/
theorem Represents.pushed (h : s.Represents nodes lines)
    (hroom : line ∈ lines ∨ lines.length < s.cacheLines) (request : List ℕ) :
    ∃ nodes' lines', (s.push line).Represents nodes' lines' ∧
      (lines' ++ request).toFinset = (lines ++ line :: request).toFinset := by
  have hcapacity : 1 ≤ s.cacheLines := by
    rcases hroom with hline | hless
    · exact (List.length_pos_of_mem hline).trans_le h.room
    · omega
  obtain ⟨nodes', hpush⟩ := h.push hcapacity line
  refine ⟨nodes', _, hpush, ?_⟩
  rw [List.toFinset_append, toFinset_touch hroom, List.toFinset_append, List.toFinset_cons,
    Finset.insert_union, Finset.union_insert]

/-- A request is served when its lines fit in the cache with those that are there. -/
theorem Represents.accessChecked (h : s.Represents nodes lines) (request : List ℕ) (hit : Bool)
    (hfits : (lines ++ request).toFinset.card ≤ s.cacheLines) :
    s.accessChecked request hit = .ok (s.access request hit) ∧
      Served s (s.access request hit).2 lines request := by
  induction request generalizing s nodes lines hit with
  | nil => exact ⟨rfl, rfl, nodes, lines, h, by rw [List.append_nil]⟩
  | cons line request ih =>
    have hroom := h.room_of_fits hfits
    have hsame := cacheLines_push (s := s) line
    obtain ⟨nodes₁, lines₁, h₁, hlines⟩ := h.pushed hroom request
    obtain ⟨hok, hserved⟩ := ih h₁ (hit && s.get line) (by rwa [hlines, hsame])
    obtain ⟨nodes', lines', h', hlines'⟩ := hserved.represents
    refine ⟨?_, hserved.cacheLines.trans hsame, nodes', lines', h', hlines'.trans hlines⟩
    rw [LRUExtensionBuilder.accessChecked, h.pushChecked hroom, bind_ok]
    exact hok

/-- A request whose lines do not fit runs into an eviction. -/
theorem Represents.accessChecked_full (h : s.Represents nodes lines) (request : List ℕ)
    (hit : Bool) (hfull : ¬ (lines ++ request).toFinset.card ≤ s.cacheLines) :
    ∃ fault, s.accessChecked request hit = .error fault := by
  induction request generalizing s nodes lines hit with
  | nil =>
    rw [List.append_nil, List.toFinset_card_of_nodup h.nodup] at hfull
    exact absurd h.room hfull
  | cons line request ih =>
    by_cases hroom : line ∈ lines ∨ lines.length < s.cacheLines
    · obtain ⟨nodes₁, lines₁, h₁, hlines⟩ := h.pushed hroom request
      obtain ⟨fault, hfault⟩ := ih h₁ (hit && s.get line)
        (by rwa [hlines, cacheLines_push (s := s) line])
      refine ⟨fault, ?_⟩
      rw [LRUExtensionBuilder.accessChecked, h.pushChecked hroom, bind_ok]
      exact hfault
    · rw [not_or, not_lt] at hroom
      obtain ⟨fault, hfault⟩ := h.pushChecked_full hroom.1 hroom.2
      refine ⟨fault, ?_⟩
      rw [LRUExtensionBuilder.accessChecked, hfault]
      rfl

theorem requestedLines_invalid {event : ParsedEvent} (hvalid : ¬ isEventValid event) :
    requestedLines event = [] := by
  unfold requestedLines
  cases event.io with
  | none => rfl
  | some io => exact if_neg hvalid

/-- The handler goes through the lines of its event. -/
theorem buildStep_requested {event : ParsedEvent} (hvalid : isEventValid event) :
    ∃ noRq noHit hitRatio, s.buildStep event =
      { (s.access (requestedLines event) true).2 with
        noRq := noRq, noHit := noHit
        result := some ⟨(s.access (requestedLines event) true).1, hitRatio⟩ } := by
  unfold buildStep requestedLines
  cases hio : event.io with
  | none => simp [isEventValid, hio] at hvalid
  | some io =>
    simp only [if_pos hvalid]
    exact ⟨_, _, _, rfl⟩

theorem buildStepChecked_eq {event : ParsedEvent}
    (h : isEventValid event → s.accessChecked (requestedLines event) true =
      .ok (s.access (requestedLines event) true)) :
    s.buildStepChecked event = .ok (s.buildStep event) := by
  unfold buildStepChecked
  split_ifs with hvalid
  · rw [h hvalid, bind_ok]
    unfold buildStep requestedLines
    cases hio : event.io with
    | none => simp [isEventValid, hio] at hvalid
    | some io => simp only [if_pos hvalid]
  · rw [buildStep_invalid hvalid]

/-- An event is served when its lines fit. -/
theorem Represents.buildStepChecked (h : s.Represents nodes lines) (event : ParsedEvent)
    (hfits : (lines ++ requestedLines event).toFinset.card ≤ s.cacheLines) :
    s.buildStepChecked event = .ok (s.buildStep event) ∧
      Served s (s.buildStep event) lines (requestedLines event) := by
  obtain ⟨hok, hserved⟩ := h.accessChecked (requestedLines event) true hfits
  refine ⟨buildStepChecked_eq fun _ => hok, ?_⟩
  by_cases hvalid : isEventValid event
  · obtain ⟨noRq, noHit, hitRatio, hstep⟩ := buildStep_requested (s := s) hvalid
    obtain ⟨nodes', lines', h', hlines⟩ := hserved.represents
    rw [hstep]
    exact ⟨hserved.cacheLines, nodes', lines', h'.of_eq rfl rfl rfl rfl, hlines⟩
  · rw [buildStep_invalid hvalid, requestedLines_invalid hvalid]
    exact ⟨rfl, nodes, lines, h.of_eq rfl rfl rfl rfl, by rw [List.append_nil]⟩

theorem Represents.buildStepChecked_full (h : s.Represents nodes lines) (event : ParsedEvent)
    (hfull : ¬ (lines ++ requestedLines event).toFinset.card ≤ s.cacheLines) :
    ∃ fault, s.buildStepChecked event = .error fault := by
  have hvalid : isEventValid event := by
    by_contra hvalid
    rw [requestedLines_invalid hvalid, List.append_nil,
      List.toFinset_card_of_nodup h.nodup] at hfull
    exact hfull h.room
  obtain ⟨fault, hfault⟩ := h.accessChecked_full (requestedLines event) true hfull
  refine ⟨fault, ?_⟩
  unfold LRUExtensionBuilder.buildStepChecked
  rw [if_pos hvalid, hfault]
  rfl

/-- The events and the destructor go through if and only if all lines fit in the cache. -/
theorem Represents.lifetime_iff (h : s.Represents nodes lines) (events : List ParsedEvent)
    (turns : ℕ) : (∃ l, s.lifetime events turns = .ok l) ↔
      (lines ++ events.flatMap requestedLines).toFinset.card ≤ s.cacheLines := by
  induction events generalizing s nodes lines with
  | nil =>
    rw [List.flatMap_nil, List.append_nil, List.toFinset_card_of_nodup h.nodup]
    exact iff_of_true (h.release turns) h.room
  | cons event events ih =>
    rw [List.flatMap_cons]
    by_cases hfits : (lines ++ requestedLines event).toFinset.card ≤ s.cacheLines
    · obtain ⟨hok, hserved⟩ := h.buildStepChecked event hfits
      obtain ⟨nodes', lines', h', hlines⟩ := hserved.represents
      have hrest := ih h'
      rw [List.toFinset_append, hlines, ← List.toFinset_append, List.append_assoc,
        hserved.cacheLines] at hrest
      rw [← hrest]
      unfold lifetime
      rw [List.foldlM_cons, hok, bind_ok]
    · obtain ⟨fault, hfault⟩ := h.buildStepChecked_full event hfits
      refine iff_of_false ?_ fun hcard => hfits (le_trans (Finset.card_le_card ?_) hcard)
      · rintro ⟨l, hl⟩
        unfold lifetime at hl
        rw [List.foldlM_cons, hfault] at hl
        cases hl
      · intro line
        simp only [List.mem_toFinset, List.mem_append]
        tauto

/-- For every working set and percentage, no event and no turn of the destructor follows a null
pointer or a dead node if and only if the lines of all events fit in the cache. -/
theorem lifetime_safe_iff (worksetSize cachePercentage : ℕ) (events : List ParsedEvent) :
    (∀ turns, ∃ l, (ofWorkset worksetSize cachePercentage).lifetime events turns = .ok l) ↔
      (events.flatMap requestedLines).toFinset.card ≤
        mul64 (sectorToCacheLine worksetSize) cachePercentage / 100 := by
  have hstart := Represents.init (mul64 (sectorToCacheLine worksetSize) cachePercentage / 100)
  have hsafe := fun turns => hstart.lifetime_iff events turns
  simp only [List.nil_append] at hsafe
  exact ⟨fun h => (hsafe 0).mp (h 0), fun h turns => (hsafe turns).mpr h⟩

/-- Five percent of one line are no line: the first push follows the null head. Five percent of 20
lines are one line: the second push follows the node of the first. -/
theorem lifetime_evicts :
    (ofWorkset 8 5).lifetime [readAt 0 8] 0 = .error .null ∧
      (ofWorkset 160 5).lifetime [readAt 0 160] 0 = .error .dead :=
  ⟨rfl, rfl⟩

end LRUExtensionBuilder

end Octf.Parser
