import Octf.Foundation.DoublyLinked
import Octf.Parser.ParsedIoTraceEventHandler

/-! The builder of the LRU extension: a map from cache lines to the nodes of a doubly linked
list in the order of their last use. -/
namespace Octf.Parser
open Foundation

def getSectorSize : ℕ := 512

def sectorToCacheLine (sectors : ℕ) : ℕ := mul64 sectors getSectorSize / 4096

structure Node where
  lba : ℕ
  prev : Option ℕ
  next : Option ℕ
  deriving DecidableEq

/-- The list by its ends, and the memory its nodes live in. -/
structure LRUList where
  head : Option ℕ
  tail : Option ℕ
  memory : ℕ → Node

namespace LRUList

/-- `node->next = value` -/
def setNext (node : ℕ) (value : Option ℕ) (l : LRUList) : LRUList :=
  { l with memory := Function.update l.memory node { l.memory node with next := value } }

/-- `node->prev = value` -/
def setPrev (node : ℕ) (value : Option ℕ) (l : LRUList) : LRUList :=
  { l with memory := Function.update l.memory node { l.memory node with prev := value } }

def pop (node : ℕ) (l : LRUList) : LRUList :=
  match l.head with
  | none => l
  | some _ =>
    let l := if l.tail = some node then { l with tail := (l.memory node).prev } else l
    let l := if l.head = some node then { l with head := (l.memory node).next } else l
    let l := match (l.memory node).prev with
      | some prev => l.setNext prev (l.memory node).next
      | none => l
    let l := match (l.memory node).next with
      | some next => l.setPrev next (l.memory node).prev
      | none => l
    (l.setPrev node none).setNext node none

def push (nnode : ℕ) (l : LRUList) : LRUList :=
  match l.head, l.tail with
  | none, _ => { l with head := some nnode, tail := some nnode }
  -- a list with a head has a tail
  | some _, none => l
  | some _, some tail =>
    let l := l.setNext tail (some nnode)
    let l := l.setPrev nnode (some tail)
    { l with tail := (l.memory tail).next }

end LRUList

structure CacheResult where
  hit : Bool
  hitRatio : ℕ
  deriving DecidableEq

structure LRUExtensionBuilder where
  cacheLines : ℕ
  /-- The node of every cached line; nodes are numbered as they are made. -/
  lookup : AList fun _ : ℕ => ℕ
  made : ℕ
  lru : LRUList
  /-- Empty for an event without result. -/
  result : Option CacheResult
  noRq : ℕ
  noHit : ℕ

namespace LRUExtensionBuilder

def init (cacheLines : ℕ) : LRUExtensionBuilder :=
  ⟨cacheLines, ∅, 0, ⟨none, none, fun _ => ⟨0, none, none⟩⟩, none, 0, 0⟩

/-- The constructor: a part of the lines of the working set. -/
def ofWorkset (worksetSize cachePercentage : ℕ) : LRUExtensionBuilder :=
  init (mul64 (sectorToCacheLine worksetSize) cachePercentage / 100)

def isEventValid (event : ParsedEvent) : Bool :=
  match event.io with
  | none => false
  | some io => decide ((io.operation = .Read ∨ io.operation = .Write) ∧ io.len ≠ 0)

def get (lba : ℕ) (s : LRUExtensionBuilder) : Bool := decide (lba ∈ s.lookup)

def evict (s : LRUExtensionBuilder) : LRUExtensionBuilder :=
  match s.lru.head with
  | none => s
  | some node =>
    -- the links of the node are read behind its removal from the map
    { s with lookup := s.lookup.erase (s.lru.memory node).lba, lru := s.lru.pop node }

def push (lba : ℕ) (s : LRUExtensionBuilder) : LRUExtensionBuilder :=
  match s.lookup.lookup lba with
  | some node => { s with lru := (s.lru.pop node).push node }
  | none =>
    let s := if s.cacheLines ≤ s.lookup.entries.length then s.evict else s
    let lru := { s.lru with memory := Function.update s.lru.memory s.made ⟨lba, none, none⟩ }
    { s with
      lookup := s.lookup.insert lba s.made
      made := s.made + 1
      lru := lru.push s.made }

/-- The loop over the lines of a request. -/
def access : (lines : List ℕ) → Bool → LRUExtensionBuilder → Bool × LRUExtensionBuilder
  | [], hit, s => (hit, s)
  | line :: lines, hit, s => access lines (hit && s.get line) (s.push line)

/-- The build step event handler. -/
def buildStep (event : ParsedEvent) (s : LRUExtensionBuilder) : LRUExtensionBuilder :=
  match event.io with
  | none => { s with result := none }
  | some io =>
    if isEventValid event then
      let firstCacheLine := sectorToCacheLine io.lba
      let lastCacheLine := sectorToCacheLine (sub64 (add64 io.lba io.len) 1)
      let accessed := s.access
        (List.range' firstCacheLine (lastCacheLine + 1 - firstCacheLine)) true
      let hit := accessed.1
      let s := accessed.2
      let noRq := add64 s.noRq 1
      let noHit := if hit then add64 s.noHit 1 else s.noHit
      { s with noRq := noRq, noHit := noHit, result := some ⟨hit, mul64 noHit 100 / noRq⟩ }
    else { s with result := none }

/-- The hit features of the events, in their order. -/
def hits : List ParsedEvent → LRUExtensionBuilder → List (Option Bool)
  | [], _ => []
  | event :: events, s =>
    let s := s.buildStep event
    s.result.map CacheResult.hit :: hits events s

end LRUExtensionBuilder

end Octf.Parser
