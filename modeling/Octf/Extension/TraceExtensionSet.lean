import Octf.Foundation.OrderedSet
import Mathlib.Data.Prod.Lex
import Mathlib.Data.String.Basic

/-! A set of trace extensions, read as one extension: the records of all of them, always from the
extension with the smallest next sequence id. -/
namespace Octf.Extension
open Foundation

/-- The messages of an extension's file: a record is its sequence id and its content. -/
inductive Message (E : Type) where
  | sid (value : ℕ)
  | content (ext : E)

variable {E : Type}

/-- `TraceExtensionLocal::Writer`, over a file that can be written. -/
structure Writer (E : Type) where
  file : List (Message E)
  lastSid : ℕ

namespace Writer

def new : Writer E := ⟨[], 0⟩

def write (sid : ℕ) (msg : E) (w : Writer E) : Except String (Writer E) :=
  if sid < w.lastSid then .error "Extension ERROR, SID value invalid."
  else .ok ⟨w.file ++ [.sid sid, .content msg], sid⟩

/-- The records of a builder, one after another. -/
def writeAll : List (ℕ × E) → Writer E → Except String (Writer E)
  | [], w => .ok w
  | (sid, msg) :: records, w => do
    let w ← w.write sid msg
    w.writeAll records

end Writer

/-- `TraceExtensionLocal::Reader`: what is left of the file, and the id read ahead. -/
structure Reader (E : Type) where
  file : List (Message E)
  sid : ℕ
  hasSid : Bool

namespace Reader

/-- A reader that has opened the file. -/
def init (file : List (Message E)) : Reader E := ⟨file, 0, false⟩

def hasNext (r : Reader E) : Bool := !r.file.isEmpty

def getNextSid (r : Reader E) : Except String (ℕ × Reader E) :=
  if r.hasSid then .ok (r.sid, r)
  else
    match r.file with
    | .sid value :: file => .ok (value, ⟨file, value, true⟩)
    | .content _ :: _ => .error "Couldn't parse valid trace event"
    | [] => .error "Attempted to read from fully parsed file"

def read (r : Reader E) : Except String (ℕ × E × Reader E) := do
  let (sid, r) ← r.getNextSid
  match r.file with
  | .content ext :: file => .ok (sid, ext, { r with file := file, hasSid := false })
  | .sid _ :: _ => .error "Couldn't parse valid trace event"
  | [] => .error "Attempted to read from fully parsed file"

end Reader

structure TraceExtension (E : Type) where
  name : String
  reader : Reader E

structure TraceExtensionEntry (E : Type) where
  ext : TraceExtension E
  sid : ℕ

namespace TraceExtensionEntry

def new (extension : TraceExtension E) : Except String (TraceExtensionEntry E) := do
  let (sid, reader) ← extension.reader.getNextSid
  .ok ⟨{ extension with reader := reader }, sid⟩

/-- `operator<` -/
def lt (a b : TraceExtensionEntry E) : Bool :=
  if a.sid ≠ b.sid then decide (a.sid < b.sid) else decide (a.ext.name < b.ext.name)

end TraceExtensionEntry

/-- The entries in the order of their set. -/
structure TraceExtensionSet (E : Type) where
  set : List (TraceExtensionEntry E)

namespace TraceExtensionSet

def new : TraceExtensionSet E := ⟨[]⟩

def addTraceExtension (ext : TraceExtension E) (s : TraceExtensionSet E) :
    Except String (TraceExtensionSet E) :=
  if ext.reader.hasNext then do
    let entry ← TraceExtensionEntry.new ext
    .ok ⟨OrderedSet.insert TraceExtensionEntry.lt entry s.set⟩
  else .ok s

def getName (s : TraceExtensionSet E) : Except String String :=
  match s.set with
  | entry :: _ => .ok entry.ext.name
  | [] => .error "ERROR, No more trace extension"

def hasNext (s : TraceExtensionSet E) : Bool := !s.set.isEmpty

/-- The id of the next record; the extension reads it ahead if it has not. -/
def getNextSid (s : TraceExtensionSet E) : Except String (ℕ × TraceExtensionSet E) :=
  match s.set with
  | entry :: set => do
    let (sid, reader) ← entry.ext.reader.getNextSid
    .ok (sid, ⟨{ entry with ext := { entry.ext with reader := reader } } :: set⟩)
  | [] => .error "ERROR, No more trace extension"

/-- Without an entry the source dereferences the end of the set. -/
def read (s : TraceExtensionSet E) : Except String (ℕ × E × TraceExtensionSet E) :=
  match s.set with
  | next :: set => do
    let (sid, ext, reader) ← next.ext.reader.read
    if reader.hasNext then do
      let (nextSid, reader) ← reader.getNextSid
      let next : TraceExtensionEntry E := ⟨{ next.ext with reader := reader }, nextSid⟩
      .ok (sid, ext, ⟨OrderedSet.insert TraceExtensionEntry.lt next set⟩)
    else .ok (sid, ext, ⟨set⟩)
  | [] => .error "the end of the set"

end TraceExtensionSet

end Octf.Extension
