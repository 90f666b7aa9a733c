import Mathlib.Data.List.DropRight
import Octf.Foundation.AssociationList
import Octf.Parser.ParsedIoTraceEventHandler

/-! The filesystem tree of version 2: built from the names of files in a trace, or rebuilt from the
extension that the first build of it has written. -/
namespace Octf.Parser.v2
open Foundation

/-- `PATH_MAX` -/
def PATH_MAX : ℕ := 4096

structure FileInfo where
  parent : FileKey
  name : List Char
  deriving DecidableEq

/-- The order of the file ids. -/
def before (a b : FileKey) : Bool :=
  if a.partitionId ≠ b.partitionId then a.partitionId < b.partitionId
  else if a.id ≠ b.id then a.id < b.id
  else a.creationDate < b.creationDate

/-- The length of a name in bytes. -/
def byteLength (name : List Char) : ℕ := name.foldl (fun len c => len + c.utf8Size) 0

/-- Paths that are too long are given up, and without all parents there is none. -/
inductive Path where
  | exceeded
  | missing
  | found (path : List Char)
  deriving DecidableEq

structure FileSystemViewer where
  fileInfo : List (FileKey × FileInfo)

namespace FileSystemViewer

variable (viewer : FileSystemViewer)

def addFile (id : FileKey) (info : FileInfo) : FileSystemViewer := ⟨assign id info viewer.fileInfo⟩

/-- The entry in front of the lower bound of an id that is not there. -/
def prev (id : FileKey) : Option (FileKey × FileInfo) :=
  (viewer.fileInfo.filter fun e => before e.1 id).foldl (fun last e =>
    match last with
    | none => some e
    | some l => if before l.1 e.1 then some e else some l) none

/-- The weak search takes the file with an earlier creation date for one that is not there. -/
def find (id : FileKey) (week : Bool) : Option FileInfo :=
  match valueAt id viewer.fileInfo with
  | some info => some info
  | none =>
    if week then
      match viewer.prev id with
      | some e => if e.1.id = id.id ∧ e.1.partitionId = id.partitionId then some e.2 else none
      | none => none
    else none

def hasFile (id : FileKey) : Bool := (viewer.find id false).isSome

def getFileNamePrefix (id : FileKey) : List Char :=
  match viewer.find id true with
  | none => []
  | some info =>
    let basename := if '.' ∈ info.name then (info.name.rdropWhile (· ≠ '.')).dropLast
      else info.name
    basename.rdropWhile fun c => !c.isAlpha

def getFileName (id : FileKey) : List Char :=
  ((viewer.find id true).map FileInfo.name).getD []

def getFileExtension (id : FileKey) : List Char :=
  match viewer.find id true with
  | none => []
  | some info => if '.' ∈ info.name then info.name.rtakeWhile (· ≠ '.') else []

/-- `getPath` with the length of the names before, and a bound on its depth. -/
def getPath : (depth : ℕ) → FileKey → (len : ℕ) → Option Path
  | 0, _, _ => none
  | depth + 1, id, len =>
    match viewer.find id true with
    | none => some .missing
    | some info =>
      let len := len + byteLength info.name
      if PATH_MAX < len then some .exceeded
      else if id ≠ info.parent ∧ info.name ≠ ['/'] then
        (getPath depth info.parent len).map fun
          | .found path =>
            let path := if path ≠ [] ∧ path.getLast? ≠ some '/' then path ++ ['/'] else path
            .found (path ++ info.name)
          | failed => failed
      else some (.found info.name)

def getDirPath (depth : ℕ) (id : FileKey) : Option (List Char) :=
  match viewer.find id true with
  | none => some []
  | some info =>
    (viewer.getPath depth info.parent 0).map fun
      | .found path => path
      | _ => []

def getFilePath (depth : ℕ) (id : FileKey) : Option (List Char) :=
  match viewer.find id true with
  | none => some []
  | some info =>
    (viewer.getDirPath depth id).map fun path =>
      if path = [] then []
      else (if path ≠ ['/'] then path ++ ['/'] else path) ++ info.name

/-- The empty id stands for no parent. -/
def getParentId (id : FileKey) : FileKey :=
  ((viewer.find id true).map FileInfo.parent).getD ⟨0, 0, 0⟩

end FileSystemViewer

/-- `TraceEventHandlerFilesystemTree`, with what it writes to the extension. -/
structure FilesystemTree where
  viewers : ℕ → FileSystemViewer
  records : List Event

/-- The file that an event names. -/
def naming (event : Event) : Option (FileKey × FileInfo) :=
  match event.eventType with
  | .filesystemFileName src => some (src.fileId.key, ⟨src.fileParentId.key, src.fileName.toList⟩)
  | _ => none

namespace FilesystemTree

def new : FilesystemTree := ⟨fun _ => ⟨[]⟩, []⟩

def handleEvent (isWritable : Bool) (event : Event) (t : FilesystemTree) : FilesystemTree :=
  match naming event with
  | none => t
  | some (id, info) =>
    let viewer := t.viewers id.partitionId
    { viewers := Function.update t.viewers id.partitionId (viewer.addFile id info)
      records := if isWritable ∧ viewer.hasFile id = false then t.records ++ [event]
        else t.records }

/-- The tree from the events of a trace. -/
def processed (events : List Event) : FilesystemTree :=
  events.foldl (fun t event => t.handleEvent true event) new

/-- The tree of a later request, from the records of the committed extension. -/
def rebuilt (events : List Event) : FilesystemTree :=
  (processed events).records.foldl (fun t event => t.handleEvent false event) new

end FilesystemTree

end Octf.Parser.v2
