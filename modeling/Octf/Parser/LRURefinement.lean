import Octf.Parser.LRUExtensionBuilder

/-! The LRU builder against a plain list of lines in the order of their last use. -/
namespace Octf.Parser
open Foundation

/-! ### The list of lines -/

namespace ListLru

/-- A use of a line: it becomes the last one, and the first one makes room for a new one. -/
def touch (capacity : ℕ) (lines : List ℕ) (line : ℕ) : List ℕ :=
  if line ∈ lines then lines.erase line ++ [line]
  else (if capacity ≤ lines.length then lines.tail else lines) ++ [line]

/-- The lines of eight sectors that a request touches. -/
def touched (lba len : ℕ) : List ℕ := List.range' (lba / 8) ((lba + len - 1) / 8 + 1 - lba / 8)

/-- A request is a hit when all its lines are there; other events have no hit feature. -/
def step (capacity : ℕ) (lines : List ℕ) (event : ParsedEvent) : Option Bool × List ℕ :=
  match event.io with
  | none => (none, lines)
  | some io =>
    if LRUExtensionBuilder.isEventValid event then
      (some (decide (∀ line ∈ touched io.lba io.len, line ∈ lines)),
        (touched io.lba io.len).foldl (touch capacity) lines)
    else (none, lines)

theorem step_valid {capacity : ℕ} {lines : List ℕ} {event : ParsedEvent} {io : ParsedIo}
    (hio : event.io = some io) (hvalid : LRUExtensionBuilder.isEventValid event) :
    step capacity lines event =
      (some (decide (∀ line ∈ touched io.lba io.len, line ∈ lines)),
        (touched io.lba io.len).foldl (touch capacity) lines) := by
  simp only [step, hio, if_pos hvalid]

theorem step_invalid {capacity : ℕ} {lines : List ℕ} {event : ParsedEvent}
    (h : ¬ LRUExtensionBuilder.isEventValid event) :
    step capacity lines event = (none, lines) := by
  cases hio : event.io with
  | none => simp only [step, hio]
  | some io => simp only [step, hio, if_neg h]

/-- The hit features of the events, and the lines behind them. -/
def run (capacity : ℕ) : List ParsedEvent → List ℕ → List (Option Bool) × List ℕ
  | [], lines => ([], lines)
  | event :: events, lines =>
    let (hit, lines) := step capacity lines event
    let (hits, lines) := run capacity events lines
    (hit :: hits, lines)

end ListLru

namespace LRUList

def links (l : LRUList) (node : ℕ) : Links ℕ := ⟨(l.memory node).prev, (l.memory node).next⟩

/-- The nodes of the list from head to tail. -/
structure Linked (l : LRUList) (nodes : List ℕ) : Prop where
  chained : Chained l.links nodes
  head : l.head = nodes.head?
  tail : l.tail = nodes.getLast?

variable {l : LRUList} {nodes xs ys : List ℕ} {node x y : ℕ} {value : Option ℕ}

@[simp] theorem links_setNext : (l.setNext x value).links y =
    if y = x then ⟨(l.links y).prev, value⟩ else l.links y := by
  simp only [links, setNext, Function.update_apply]
  split_ifs with h
  · rw [h]
  · rfl

@[simp] theorem links_setPrev : (l.setPrev x value).links y =
    if y = x then ⟨value, (l.links y).next⟩ else l.links y := by
  simp only [links, setPrev, Function.update_apply]
  split_ifs with h
  · rw [h]
  · rfl

theorem lba_setNext : ((l.setNext x value).memory y).lba = (l.memory y).lba := by
  simp only [setNext, Function.update_apply]
  split_ifs with h
  · rw [h]
  · rfl

theorem lba_setPrev : ((l.setPrev x value).memory y).lba = (l.memory y).lba := by
  simp only [setPrev, Function.update_apply]
  split_ifs with h
  · rw [h]
  · rfl

/-- The first half of `pop`: the ends of the list. -/
def withoutEnd (node : ℕ) (l : LRUList) : LRUList :=
  let l := if l.tail = some node then { l with tail := (l.memory node).prev } else l
  if l.head = some node then { l with head := (l.memory node).next } else l

/-- The second half of `pop`: the neighbours are linked with each other. -/
def bridge (node : ℕ) (l : LRUList) : LRUList :=
  let l := match (l.memory node).prev with
    | some prev => l.setNext prev (l.memory node).next
    | none => l
  match (l.memory node).next with
  | some next => l.setPrev next (l.memory node).prev
  | none => l

theorem pop_eq (hhead : l.head = some y) :
    l.pop x = (((l.withoutEnd x).bridge x).setPrev x none).setNext x none := by
  obtain ⟨head, tail, memory⟩ := l
  obtain rfl : head = some y := hhead
  rfl

theorem memory_withoutEnd : (l.withoutEnd x).memory = l.memory := by
  simp only [withoutEnd]
  split_ifs <;> rfl

theorem head_withoutEnd : (l.withoutEnd x).head =
    if l.head = some x then (l.memory x).next else l.head := by
  simp only [withoutEnd]
  split_ifs <;> simp_all

theorem tail_withoutEnd : (l.withoutEnd x).tail =
    if l.tail = some x then (l.memory x).prev else l.tail := by
  simp only [withoutEnd]
  split_ifs <;> simp_all

theorem ends_bridge : (l.bridge x).head = l.head ∧ (l.bridge x).tail = l.tail := by
  simp only [bridge]
  split <;> split <;> exact ⟨rfl, rfl⟩

/-- The neighbours of a node are linked with each other, everything else stays. -/
theorem links_bridge (hprev : (l.links x).prev ≠ some x)
    (hapart : ∀ y, (l.links x).prev = some y → (l.links x).next ≠ some y) :
    (l.bridge x).links y =
      if (l.links x).prev = some y then ⟨(l.links y).prev, (l.links x).next⟩
      else if (l.links x).next = some y then ⟨(l.links x).prev, (l.links y).next⟩
      else l.links y := by
  have hx : l.links x = ⟨(l.memory x).prev, (l.memory x).next⟩ := rfl
  rw [hx] at hprev hapart ⊢
  simp only at hprev hapart ⊢
  simp only [bridge]
  cases hp : (l.memory x).prev with
  | none =>
    cases hn : (l.memory x).next with
    | none => simp
    | some n => simp [hp, eq_comm]
  | some p =>
    have hpx : x ≠ p := by
      rintro rfl
      exact hprev hp
    have hmemory : (l.setNext p (l.memory x).next).memory x = l.memory x :=
      Function.update_of_ne hpx _ _
    simp only [hmemory]
    cases hn : (l.memory x).next with
    | none => simp [eq_comm]
    | some n =>
      have hpn : p ≠ n := by
        rintro rfl
        exact hapart p hp hn
      simp only [links_setPrev, links_setNext, hp, Option.some.injEq]
      by_cases hyp : y = p
      · subst hyp
        rw [if_neg hpn, if_pos rfl, if_pos rfl]
      · rw [if_neg hyp, if_neg (Ne.symm hyp)]
        by_cases hyn : y = n
        · rw [if_pos hyn, if_pos hyn.symm]
        · rw [if_neg hyn, if_neg (Ne.symm hyn)]

/-- Popping a node of the list takes it out and clears its links. -/
theorem Linked.pop (h : l.Linked (xs ++ x :: ys)) : (l.pop x).Linked (xs ++ ys) ∧
    (l.pop x).links x = ⟨none, none⟩ := by
  have hx := h.chained.linked xs x ys rfl
  obtain ⟨y, hhead⟩ : ∃ y, l.head = some y := by
    rw [h.head]
    cases xs with
    | nil => exact ⟨x, rfl⟩
    | cons y xs => exact ⟨y, rfl⟩
  have hnodup := List.nodup_append.mp h.chained.nodup
  have hxs : x ∉ xs := fun hmem => hnodup.2.2 x hmem x List.mem_cons_self rfl
  have hys : x ∉ ys := (List.nodup_cons.mp hnodup.2.1).1
  have hlinks : ∀ y, (l.pop x).links y = if y = x then ⟨none, none⟩
      else if xs.getLast? = some y then ⟨(l.links y).prev, ys.head?⟩
      else if ys.head? = some y then ⟨xs.getLast?, (l.links y).next⟩ else l.links y := by
    intro y
    have hsame : ∀ z, (l.withoutEnd x).links z = l.links z := fun z => by
      simp only [links, memory_withoutEnd]
    rw [pop_eq hhead, links_setNext, links_setPrev, links_bridge, hsame, hsame, hx]
    · split_ifs <;> rfl
    · rw [hsame, hx]
      exact fun hlast => hxs (List.mem_of_getLast? hlast)
    · intro y hlast hnext
      rw [hsame, hx] at hlast hnext
      exact hnodup.2.2 y (List.mem_of_getLast? hlast) y
        (List.mem_cons_of_mem x (List.mem_of_head? hnext)) rfl
  have hends : (l.pop x).head = (xs ++ ys).head? ∧ (l.pop x).tail = (xs ++ ys).getLast? := by
    have hsets : (l.pop x).head = (l.withoutEnd x).head ∧
        (l.pop x).tail = (l.withoutEnd x).tail := by
      rw [pop_eq hhead]
      exact ends_bridge
    have hlast : (l.memory x).prev = xs.getLast? := congrArg Links.prev hx
    have hnext : (l.memory x).next = ys.head? := congrArg Links.next hx
    rw [hsets.1, hsets.2, head_withoutEnd, tail_withoutEnd, h.head, h.tail, hlast, hnext]
    constructor
    · cases xs with
      | nil => simp
      | cons y xs =>
        have hne : y ≠ x := by
          rintro rfl
          simp at hxs
        simp [hne]
    · cases hend : ys.getLast? with
      | none =>
        obtain rfl := List.getLast?_eq_none_iff.mp hend
        simp
      | some z =>
        have hne : z ≠ x := by
          rintro rfl
          exact hys (List.mem_of_getLast? hend)
        simp [List.getLast?_append, List.getLast?_cons, hend, hne]
  refine ⟨⟨?_, hends.1, hends.2⟩, by rw [hlinks, if_pos rfl]⟩
  apply h.chained.unlink
  · intro y hlast
    have hne : y ≠ x := by
      rintro rfl
      exact hxs (List.mem_of_getLast? hlast)
    rw [hlinks, if_neg hne, if_pos hlast]
  · intro y hnext
    have hne : y ≠ x := by
      rintro rfl
      exact hys (List.mem_of_head? hnext)
    have hapart : xs.getLast? ≠ some y := fun hlast => hnodup.2.2 y (List.mem_of_getLast? hlast) y
      (List.mem_cons_of_mem x (List.mem_of_head? hnext)) rfl
    rw [hlinks, if_neg hne, if_neg hapart, if_pos hnext]
  · intro y hy hlast hnext
    have hne : y ≠ x := by
      rintro rfl
      rcases List.mem_append.mp hy with hmem | hmem
      · exact hxs hmem
      · exact hys hmem
    rw [hlinks, if_neg hne, if_neg hlast, if_neg hnext]

theorem lba_pop : ((l.pop x).memory y).lba = (l.memory y).lba := by
  have hbridge : ∀ l : LRUList, ((l.bridge x).memory y).lba = (l.memory y).lba := by
    intro l
    simp only [bridge]
    split <;> split <;> simp only [lba_setNext, lba_setPrev]
  cases hhead : l.head with
  | none => simp [pop, hhead]
  | some z =>
    rw [pop_eq hhead, lba_setNext, lba_setPrev, hbridge, memory_withoutEnd]

/-- Pushing a node that is not in the list appends it. -/
theorem Linked.push (h : l.Linked nodes) (hx : x ∉ nodes) (hlinks : l.links x = ⟨none, none⟩) :
    (l.push x).Linked (nodes ++ [x]) := by
  cases hlast : nodes.getLast? with
  | none =>
    obtain rfl := List.getLast?_eq_none_iff.mp hlast
    have hhead : l.head = none := h.head
    have hpush : l.push x = { l with head := some x, tail := some x } := by
      simp [LRUList.push, hhead]
    rw [hpush]
    refine ⟨h.chained.append hx (fun y hy => by cases hy) ?_ (fun y hy => by cases hy), rfl, rfl⟩
    exact hlinks
  | some last =>
    obtain ⟨y, hhead⟩ : ∃ y, l.head = some y := by
      rw [h.head]
      cases nodes with
      | nil => cases hlast
      | cons y nodes => exact ⟨y, rfl⟩
    have htail : l.tail = some last := h.tail.trans hlast
    have hne : last ≠ x := by
      rintro rfl
      exact hx (List.mem_of_getLast? hlast)
    have hpush : l.push x = { (l.setNext last (some x)).setPrev x (some last) with
        tail := some x } := by
      simp [LRUList.push, hhead, htail, setNext, setPrev, Function.update_of_ne hne]
    have hnew : ∀ y, (l.push x).links y = if y = x then ⟨some last, none⟩
        else if y = last then ⟨(l.links y).prev, some x⟩ else l.links y := by
      intro y
      have heq : (l.push x).links y =
          ((l.setNext last (some x)).setPrev x (some last)).links y := by
        rw [hpush]
        rfl
      rw [heq, links_setPrev, links_setNext]
      by_cases hy : y = x
      · subst hy
        simp [Ne.symm hne, hlinks]
      · simp [hy]
    refine ⟨h.chained.append hx ?_ ?_ ?_, ?_, ?_⟩
    · intro y hy
      obtain rfl : last = y := Option.some.inj (hlast.symm.trans hy)
      rw [hnew, if_neg hne, if_pos rfl]
    · rw [hnew, if_pos rfl, hlast]
    · intro y hy hylast
      have hyx : y ≠ x := by
        rintro rfl
        exact hx hy
      have hyl : y ≠ last := by
        rintro rfl
        exact hylast hlast
      rw [hnew, if_neg hyx, if_neg hyl]
    · rw [hpush, List.head?_append_of_ne_nil _ (by rintro rfl; cases hlast)]
      exact h.head
    · rw [hpush, List.getLast?_concat]

theorem lba_push : ((l.push x).memory y).lba = (l.memory y).lba := by
  simp only [push]
  split
  · rfl
  · rfl
  · simp only [lba_setPrev, lba_setNext]

end LRUList

namespace LRUExtensionBuilder

/-- The list of the builder holds these nodes for these lines, and the map leads to them. -/
structure Represents (s : LRUExtensionBuilder) (nodes lines : List ℕ) : Prop where
  linked : s.lru.Linked nodes
  lines_eq : nodes.map (fun node => (s.lru.memory node).lba) = lines
  nodup : lines.Nodup
  found : ∀ line node, s.lookup.lookup line = some node ↔
    node ∈ nodes ∧ (s.lru.memory node).lba = line
  made : ∀ node ∈ nodes, node < s.made
  room : lines.length ≤ s.cacheLines

variable {s : LRUExtensionBuilder} {nodes lines : List ℕ} {line node : ℕ}

namespace Represents

/-- The result and the counters play no part. -/
theorem of_eq {t : LRUExtensionBuilder} (h : s.Represents nodes lines) (hlru : t.lru = s.lru)
    (hlookup : t.lookup = s.lookup) (hmade : t.made = s.made)
    (hcapacity : t.cacheLines = s.cacheLines) : t.Represents nodes lines := by
  obtain ⟨hlinked, hlines, hnodup, hfound, hbound, hroom⟩ := h
  constructor
  · rwa [hlru]
  · rwa [hlru]
  · exact hnodup
  · rwa [hlru, hlookup]
  · rwa [hmade]
  · rwa [hcapacity]

/-- The keys of the map are the lines of the list. -/
theorem mem_lookup (h : s.Represents nodes lines) : line ∈ s.lookup ↔ line ∈ lines := by
  rw [← AList.lookup_isSome, Option.isSome_iff_exists, ← h.lines_eq, List.mem_map]
  constructor
  · rintro ⟨node, hnode⟩
    exact ⟨node, (h.found line node).mp hnode⟩
  · rintro ⟨node, hnode⟩
    exact ⟨node, (h.found line node).mpr hnode⟩

theorem keys_perm (h : s.Represents nodes lines) : s.lookup.keys.Perm lines := by
  rw [List.perm_ext_iff_of_nodup s.lookup.keys_nodup h.nodup]
  intro line
  rw [← AList.mem_keys, h.mem_lookup]

theorem size (h : s.Represents nodes lines) : s.lookup.entries.length = lines.length := by
  rw [← h.keys_perm.length_eq, AList.keys, List.keys, List.length_map]

theorem init (capacity : ℕ) : (init capacity).Represents [] [] where
  linked := ⟨Chained.nil, rfl, rfl⟩
  lines_eq := rfl
  nodup := List.nodup_nil
  found line node := by simp [LRUExtensionBuilder.init]
  made node h := by cases h
  room := Nat.zero_le _

/-- The least recently used line is evicted. -/
theorem evict (h : s.Represents (node :: nodes) lines) : s.evict.Represents nodes lines.tail := by
  have hhead : s.lru.head = some node := h.linked.head
  have hfirst : s.lru.Linked ([] ++ node :: nodes) := h.linked
  obtain ⟨hlinked, -⟩ := hfirst.pop
  have hlba : ∀ n, ((s.lru.pop node).memory n).lba = (s.lru.memory n).lba :=
    fun n => LRUList.lba_pop
  have hlines : lines = (s.lru.memory node).lba :: nodes.map fun n => (s.lru.memory n).lba :=
    h.lines_eq.symm
  have hnodup := h.nodup
  rw [hlines, List.nodup_cons] at hnodup
  simp only [LRUExtensionBuilder.evict, hhead]
  refine ⟨hlinked, ?_, ?_, ?_, ?_, ?_⟩
  · simp only [hlba]
    rw [hlines]
    rfl
  · rw [hlines]
    exact hnodup.2
  · intro line n
    simp only [hlba]
    by_cases hline : line = (s.lru.memory node).lba
    · subst hline
      rw [AList.lookup_erase]
      constructor
      · intro hnone
        cases hnone
      · rintro ⟨hn, heq⟩
        exact absurd (List.mem_map.mpr ⟨n, hn, heq⟩) hnodup.1
    · rw [AList.lookup_erase_ne hline, h.found, List.mem_cons]
      constructor
      · rintro ⟨rfl | hn, heq⟩
        · exact absurd heq.symm hline
        · exact ⟨hn, heq⟩
      · rintro ⟨hn, heq⟩
        exact ⟨Or.inr hn, heq⟩
  · exact fun n hn => h.made n (List.mem_cons_of_mem _ hn)
  · exact (List.length_tail ▸ Nat.sub_le _ _).trans h.room

/-- A line that is there becomes the last one. -/
theorem push_found (h : s.Represents nodes lines) (hfound : s.lookup.lookup line = some node) :
    ∃ nodes', (s.push line).Represents nodes' (lines.erase line ++ [line]) := by
  obtain ⟨hmem, hline⟩ := (h.found line node).mp hfound
  obtain ⟨xs, ys, rfl⟩ := List.append_of_mem hmem
  obtain ⟨hlinked, hclear⟩ := h.linked.pop
  have hnodup := h.linked.chained.nodup
  have hfresh : node ∉ xs ++ ys := by
    intro hnode
    rw [List.nodup_middle] at hnodup
    exact (List.nodup_cons.mp hnodup).1 hnode
  have hlba : ∀ n, (((s.lru.pop node).push node).memory n).lba = (s.lru.memory n).lba := fun n =>
    LRUList.lba_push.trans LRUList.lba_pop
  have hlines : lines = xs.map (fun n => (s.lru.memory n).lba) ++
      line :: ys.map fun n => (s.lru.memory n).lba := by
    rw [← h.lines_eq, ← hline]
    simp
  have herase : lines.erase line = xs.map (fun n => (s.lru.memory n).lba) ++
      ys.map fun n => (s.lru.memory n).lba := by
    have hnodup := h.nodup
    rw [hlines, List.nodup_middle, List.nodup_cons] at hnodup
    rw [hlines, List.erase_append_right _ (fun hmem => hnodup.1 (List.mem_append_left _ hmem)),
      List.erase_cons_head]
  refine ⟨xs ++ ys ++ [node], ?_⟩
  simp only [push, hfound]
  refine ⟨hlinked.push hfresh hclear, ?_, ?_, ?_, ?_, ?_⟩
  · simp only [hlba, herase, List.map_append, List.map_cons, List.map_nil, hline]
  · have hnodup := h.nodup
    rw [hlines, List.nodup_middle] at hnodup
    rw [herase]
    exact List.nodup_append_comm.mp (List.nodup_cons.mpr (List.nodup_cons.mp hnodup))
  · intro line' n
    simp only [hlba]
    rw [h.found]
    simp only [List.mem_append, List.mem_cons, List.not_mem_nil, or_false]
    tauto
  · intro n hn
    apply h.made
    simp only [List.mem_append, List.mem_cons, List.not_mem_nil, or_false] at hn ⊢
    tauto
  · have hlength : (lines.erase line ++ [line]).length = lines.length := by
      rw [herase, hlines]
      simp only [List.length_append, List.length_cons, List.length_nil]
      omega
    rw [hlength]
    exact h.room

/-- A new line is the last one, where there is room for it. -/
theorem insert (h : s.Represents nodes lines) (hline : line ∉ lines)
    (hroom : lines.length < s.cacheLines) :
    ({ s with
      lookup := s.lookup.insert line s.made
      made := s.made + 1
      lru := LRUList.push s.made { s.lru with
        memory := Function.update s.lru.memory s.made ⟨line, none, none⟩ } } :
      LRUExtensionBuilder).Represents (nodes ++ [s.made]) (lines ++ [line]) := by
  have hfresh : s.made ∉ nodes := fun hmem => (h.made _ hmem).ne rfl
  have hmemory : ∀ n ∈ nodes,
      Function.update s.lru.memory s.made ⟨line, none, none⟩ n = s.lru.memory n := by
    intro n hn
    exact Function.update_of_ne (h.made n hn).ne _ _
  have hlinked : LRUList.Linked { s.lru with
      memory := Function.update s.lru.memory s.made ⟨line, none, none⟩ } nodes :=
    ⟨h.linked.chained.congr fun n hn => by simp only [LRUList.links, hmemory n hn],
      h.linked.head, h.linked.tail⟩
  have hclear : LRUList.links { s.lru with
      memory := Function.update s.lru.memory s.made ⟨line, none, none⟩ } s.made =
      ⟨none, none⟩ := by
    simp [LRUList.links]
  refine ⟨hlinked.push hfresh hclear, ?_, ?_, ?_, ?_, ?_⟩
  · simp only [LRUList.lba_push, List.map_append, List.map_cons, List.map_nil,
      Function.update_self]
    rw [← h.lines_eq, List.map_congr_left fun n hn => by rw [hmemory n hn]]
  · rw [List.nodup_append_comm]
    exact List.nodup_cons.mpr ⟨hline, h.nodup⟩
  · intro line' n
    simp only [LRUList.lba_push]
    by_cases hnew : line' = line
    · subst hnew
      rw [AList.lookup_insert, Option.some.injEq]
      constructor
      · rintro rfl
        exact ⟨List.mem_append_right _ List.mem_cons_self, by rw [Function.update_self]⟩
      · rintro ⟨hn, hlba⟩
        rcases List.mem_append.mp hn with hn | hn
        · rw [hmemory n hn] at hlba
          refine absurd ?_ hline
          rw [← h.lines_eq]
          exact List.mem_map.mpr ⟨n, hn, hlba⟩
        · exact (List.mem_singleton.mp hn).symm
    · rw [AList.lookup_insert_ne hnew, h.found]
      constructor
      · rintro ⟨hn, hlba⟩
        exact ⟨List.mem_append_left _ hn, by rw [hmemory n hn]; exact hlba⟩
      · rintro ⟨hn, hlba⟩
        rcases List.mem_append.mp hn with hn | hn
        · rw [hmemory n hn] at hlba
          exact ⟨hn, hlba⟩
        · rw [List.mem_singleton.mp hn, Function.update_self] at hlba
          exact absurd hlba.symm hnew
  · intro n hn
    rcases List.mem_append.mp hn with hn | hn
    · exact (h.made n hn).trans (Nat.lt_succ_self _)
    · rw [List.mem_singleton.mp hn]
      exact Nat.lt_succ_self _
  · rw [List.length_append]
    exact hroom

/-- The builder uses a line as the list does. -/
theorem push (h : s.Represents nodes lines) (hcapacity : 1 ≤ s.cacheLines) (line : ℕ) :
    ∃ nodes', (s.push line).Represents nodes' (ListLru.touch s.cacheLines lines line) := by
  unfold ListLru.touch
  cases hfound : s.lookup.lookup line with
  | some node =>
    have hmem : line ∈ lines := by
      rw [← h.mem_lookup, ← AList.lookup_isSome, hfound]
      rfl
    rw [if_pos hmem]
    exact h.push_found hfound
  | none =>
    have hmem : line ∉ lines := by
      rw [← h.mem_lookup, ← AList.lookup_isSome, hfound]
      exact Bool.false_ne_true
    rw [if_neg hmem]
    simp only [LRUExtensionBuilder.push, hfound, h.size]
    by_cases hfull : s.cacheLines ≤ lines.length
    · -- the first line makes room
      simp only [if_pos hfull]
      cases nodes with
      | nil =>
        have hlines : lines = [] := h.lines_eq.symm
        rw [hlines, List.length_nil] at hfull
        omega
      | cons node nodes =>
        have hevict := h.evict
        have hcapacity' : s.evict.cacheLines = s.cacheLines := by
          have hhead : s.lru.head = some node := h.linked.head
          simp only [LRUExtensionBuilder.evict, hhead]
        refine ⟨_, hevict.insert (fun hline => hmem (List.mem_of_mem_tail hline)) ?_⟩
        rw [List.length_tail, hcapacity']
        have := h.room
        omega
    · simp only [if_neg hfull]
      exact ⟨_, h.insert hmem (Nat.not_le.mp hfull)⟩

end Represents

theorem cacheLines_push (line : ℕ) : (s.push line).cacheLines = s.cacheLines := by
  simp only [push]
  split
  · rfl
  · split_ifs
    · simp only [evict]
      split <;> rfl
    · rfl

/-- The loop over the lines of a request: a hit when all of them were there before. -/
theorem access_spec (h : s.Represents nodes lines) (hcapacity : 1 ≤ s.cacheLines)
    (request : List ℕ) (hit : Bool) :
    (s.access request hit).1 = (hit && decide (∀ line ∈ request, line ∈ lines)) ∧
      (s.access request hit).2.cacheLines = s.cacheLines ∧
      ∃ nodes', (s.access request hit).2.Represents nodes'
        (request.foldl (ListLru.touch s.cacheLines) lines) := by
  induction request generalizing s nodes lines hit with
  | nil => exact ⟨by simp [access], rfl, nodes, h⟩
  | cons line request ih =>
    obtain ⟨nodes', hpush⟩ := h.push hcapacity line
    have hsame := cacheLines_push (s := s) line
    obtain ⟨hhit, hcache, hrest⟩ := ih hpush (hsame ▸ hcapacity) (hit && s.get line)
    rw [hsame] at hcache hrest
    refine ⟨?_, hcache, hrest⟩
    rw [access, hhit]
    have hget : s.get line = decide (line ∈ lines) := by
      simp only [get, h.mem_lookup]
    by_cases hline : line ∈ lines
    · have hmem : ∀ x, x ∈ ListLru.touch s.cacheLines lines line ↔ x ∈ lines := by
        intro x
        rw [ListLru.touch, if_pos hline, List.mem_append, List.mem_singleton]
        by_cases hx : x = line
        · simp [hx, hline]
        · simp [hx, List.mem_erase_of_ne hx]
      simp [hget, hline, hmem]
    · simp [hget, hline]

/-- A request whose last sector has a byte offset of 64 bits. -/
def InRange (event : ParsedEvent) : Prop :=
  ∀ io, event.io = some io → isEventValid event → io.lba + io.len ≤ 2 ^ 55

/-- The lines of the cache in the order of the list, which can be walked from both ends, and
the nodes that the map leads to. -/
def InRecencyOrder (capacity : ℕ) (s : LRUExtensionBuilder) (lines : List ℕ) : Prop :=
  lines.Nodup ∧ lines.length ≤ capacity ∧ s.lookup.keys.Perm lines ∧ ∃ nodes : List ℕ,
    nodes.Nodup ∧ Path (fun node => (s.lru.memory node).next) s.lru.head nodes ∧
    Path (fun node => (s.lru.memory node).prev) s.lru.tail nodes.reverse ∧
    nodes.map (fun node => (s.lru.memory node).lba) = lines ∧
    ∀ line node, s.lookup.lookup line = some node ↔
      node ∈ nodes ∧ (s.lru.memory node).lba = line

theorem Represents.inRecencyOrder (h : s.Represents nodes lines) :
    s.InRecencyOrder s.cacheLines lines := by
  have hforward := h.linked.chained.forward
  have hbackward := h.linked.chained.backward
  rw [← h.linked.head] at hforward
  rw [← h.linked.tail] at hbackward
  exact ⟨h.nodup, h.room, h.keys_perm, nodes, h.linked.chained.nodup, hforward, hbackward,
    h.lines_eq, h.found⟩

theorem sectorToCacheLine_of_lt {sectors : ℕ} (h : sectors < 2 ^ 55) :
    sectorToCacheLine sectors = sectors / 8 := by
  rw [sectorToCacheLine, getSectorSize, mul64_of_lt (by omega)]
  omega

/-- What the handler does with a valid event: it goes through some lines, which in range are
those the request touches. -/
theorem buildStep_valid {event : ParsedEvent} {io : ParsedIo} (hio : event.io = some io)
    (hvalid : isEventValid event) : ∃ request noRq noHit hitRatio,
      s.buildStep event = { (s.access request true).2 with
        noRq := noRq, noHit := noHit, result := some ⟨(s.access request true).1, hitRatio⟩ } ∧
      (InRange event → request = ListLru.touched io.lba io.len) := by
  simp only [buildStep, hio, if_pos hvalid]
  refine ⟨_, _, _, _, rfl, fun hrange => ?_⟩
  have hend := hrange io hio hvalid
  have hlen : 1 ≤ io.len := by
    simp only [isEventValid, hio, decide_eq_true_eq] at hvalid
    omega
  rw [add64_of_lt (by omega), sub64_of_le (by omega) (by omega),
    sectorToCacheLine_of_lt (by omega), sectorToCacheLine_of_lt (by omega), ListLru.touched]

theorem buildStep_invalid {event : ParsedEvent} (h : ¬ isEventValid event) :
    s.buildStep event = { s with result := none } := by
  cases hio : event.io with
  | none => simp only [buildStep, hio]
  | some io => simp only [buildStep, hio, if_neg h]

/-- The builder makes of one event what the list makes of it. -/
theorem buildStep_spec (h : s.Represents nodes lines) (hcapacity : 1 ≤ s.cacheLines)
    (event : ParsedEvent) : (s.buildStep event).cacheLines = s.cacheLines ∧
      ∃ nodes' lines', (s.buildStep event).Represents nodes' lines' ∧ (InRange event →
        ((s.buildStep event).result.map CacheResult.hit, lines') =
          ListLru.step s.cacheLines lines event) := by
  by_cases hvalid : isEventValid event
  · obtain ⟨io, hio⟩ : ∃ io, event.io = some io := by
      rw [← Option.isSome_iff_exists]
      by_contra hnone
      rw [Option.not_isSome_iff_eq_none] at hnone
      simp [isEventValid, hnone] at hvalid
    obtain ⟨request, noRq, noHit, hitRatio, hstep, htouched⟩ := buildStep_valid (s := s) hio hvalid
    obtain ⟨hhit, hcache, nodes', hrest⟩ := access_spec h hcapacity request true
    rw [hstep]
    refine ⟨hcache, nodes', _, hrest.of_eq rfl rfl rfl rfl, fun hrange => ?_⟩
    rw [ListLru.step_valid hio hvalid, ← htouched hrange, Option.map_some, hhit, Bool.true_and]
  · rw [buildStep_invalid hvalid]
    exact ⟨rfl, nodes, lines, h.of_eq rfl rfl rfl rfl, fun _ =>
      (ListLru.step_invalid hvalid).symm⟩

/-- Along the events the builder represents some list, and the list of the specification while
the requests are in range. -/
theorem run_spec (h : s.Represents nodes lines) (hcapacity : 1 ≤ s.cacheLines)
    (events : List ParsedEvent) : ∃ nodes' lines',
      (run buildStep events s).Represents nodes' lines' ∧
      (run buildStep events s).cacheLines = s.cacheLines ∧
      ((∀ event ∈ events, InRange event) →
        (hits events s, lines') = ListLru.run s.cacheLines events lines) := by
  induction events generalizing s nodes lines with
  | nil => exact ⟨nodes, lines, h, rfl, fun _ => rfl⟩
  | cons event events ih =>
    obtain ⟨hcache, nodes₁, lines₁, h₁, hstep⟩ := buildStep_spec h hcapacity event
    obtain ⟨nodes', lines', h', hcache', hrest⟩ := ih h₁ (hcache ▸ hcapacity)
    refine ⟨nodes', lines', h', hcache'.trans hcache, fun hrange => ?_⟩
    have hhead := hstep (hrange event List.mem_cons_self)
    have htail := hrest fun e he => hrange e (List.mem_cons_of_mem _ he)
    rw [hcache] at htail
    simp only [hits, ListLru.run, ← hhead, ← htail]

/-- In every state the map and the list hold the same lines, and while the requests are in
range the hit features and the lines are those of the plain list. -/
theorem refines_listLru (capacity : ℕ) (hcapacity : 1 ≤ capacity) (events : List ParsedEvent) :
    (∃ lines, (run buildStep events (init capacity)).InRecencyOrder capacity lines) ∧
    ((∀ event ∈ events, InRange event) →
      hits events (init capacity) = (ListLru.run capacity events []).1 ∧
      (run buildStep events (init capacity)).InRecencyOrder capacity
        (ListLru.run capacity events []).2) := by
  obtain ⟨nodes, lines, h, hcache, hspec⟩ := run_spec (Represents.init capacity) hcapacity events
  have horder := h.inRecencyOrder
  rw [hcache] at horder
  refine ⟨⟨lines, horder⟩, fun hrange => ?_⟩
  have heq := hspec hrange
  exact ⟨congrArg Prod.fst heq, congrArg Prod.snd heq ▸ horder⟩

/-- A parsed read. -/
def readAt (lba len : ℕ) : ParsedEvent :=
  { header := ⟨0, 0⟩
    io := some ⟨lba, len, .Read, false, 0, 0, 0, ⟨false, false, false, false, false⟩⟩
    device := ⟨0, "", 0, ""⟩
    file := none
    tags := [] }

theorem refines_listLru_small :
    hits [readAt 0 8, readAt 4 8, readAt 8 1] (init 1) = [some false, some false, some true] := by
  refine ((refines_listLru 1 (by decide) _).2 ?_).1.trans (by decide +kernel)
  intro event hevent io hio _
  simp only [List.mem_cons, List.not_mem_nil, or_false] at hevent
  rcases hevent with rfl | rfl | rfl <;> cases hio <;> decide

/-- A read over the sector where byte offsets wrap counts as a hit of the empty cache. -/
theorem hits_wrapped :
    hits [readAt (2 ^ 55 - 1) 2] (init 1) = [some true] ∧
      (ListLru.run 1 [readAt (2 ^ 55 - 1) 2] []).1 = [some false] := by
  decide +kernel

end LRUExtensionBuilder

end Octf.Parser
