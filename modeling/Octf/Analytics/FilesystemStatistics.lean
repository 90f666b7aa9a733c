import Octf.Analytics.IoStatistics
import Octf.Foundation.AssociationList
import Octf.Parser.FilesystemTree

/-! Statistics of the directories of files, of the extensions of their names and of the prefixes of
their names: a tree of nodes, each with the statistics of the IO that is counted there. -/
namespace Octf.Analytics
open Foundation Octf.Parser

/-- `FilesystemStatisticsEntry::NameCase` -/
inductive StatisticsCase where
  | NAME_NOT_SET
  | kDirectory
  | kFileNamePrefix
  | kFileExtension
  deriving DecidableEq

/-- `FilesystemStatistics::Key` -/
structure FilesystemStatistics.Key where
  statsCase : StatisticsCase
  name : List Char
  devId : ℕ
  partId : ℕ
  deriving DecidableEq

structure FilesystemStatistics where
  /-- The children with distinct keys, in the order they have come. -/
  children : List (FilesystemStatistics.Key × FilesystemStatistics)
  ioStats : IoStatistics
  devId : ℕ
  partId : ℕ
  statsCase : StatisticsCase

/-- `FileId(event)` -/
def fileId (event : ParsedEvent) : FileKey :=
  let file := event.file.getD .empty
  ⟨event.device.partition, file.id, file.creationDate.nanoseconds⟩

def LBA_HIT_MAP_RANGE_SIZE_DEFAULT : ℕ := 20480

namespace FilesystemStatistics

def new : FilesystemStatistics :=
  ⟨[], .new LBA_HIT_MAP_RANGE_SIZE_DEFAULT, 0, 0, .NAME_NOT_SET⟩

/-- The node that `getStatisticsByKey` refers to, which is a new one for a new key. -/
def getStatisticsByKey (key : Key) (s : FilesystemStatistics) : FilesystemStatistics :=
  (valueAt key s.children).getD
    { new with devId := key.devId, partId := key.partId, statsCase := key.statsCase }

/-- Change the node behind a reference, which is the list of its keys. -/
def atPath (f : FilesystemStatistics → Except Failure FilesystemStatistics) :
    List Key → FilesystemStatistics → Except Failure FilesystemStatistics
  | [], s => f s
  | key :: path, s => do
    let child ← atPath f path (s.getStatisticsByKey key)
    .ok { s with children := assign key child s.children }

def updateIoStats (event : ParsedEvent) (s : FilesystemStatistics) :
    Except Failure FilesystemStatistics := do
  let ioStats ← s.ioStats.count event
  .ok { s with ioStats := ioStats }

mutual

def discard (event : ParsedEvent) : FilesystemStatistics → Except Failure FilesystemStatistics
  | ⟨children, ioStats, devId, partId, statsCase⟩ => do
    let ioStats ← if devId = event.device.id then ioStats.count event else .ok ioStats
    let children ← discardChildren event children
    .ok ⟨children, ioStats, devId, partId, statsCase⟩

def discardChildren (event : ParsedEvent) :
    List (Key × FilesystemStatistics) → Except Failure (List (Key × FilesystemStatistics))
  | [] => .ok []
  | (key, child) :: children => do
    let child ← discard event child
    let children ← discardChildren event children
    .ok ((key, child) :: children)

end

def directoryKey (viewer : v2.FileSystemViewer) (devId : ℕ) (dirId : FileKey) : Key :=
  ⟨.kDirectory, viewer.getFileName dirId, devId, dirId.partitionId⟩

/-- The reference to a directory, with a bound on the depth of the calls. -/
def getStatisticsByIds (viewer : v2.FileSystemViewer) (devId : ℕ) :
    (depth : ℕ) → (dirId : FileKey) → Option (List Key)
  | 0, _ => none
  | depth + 1, dirId =>
    let parentId := viewer.getParentId dirId
    let statistics :=
      if parentId = dirId then some [] else getStatisticsByIds viewer devId depth parentId
    statistics.map fun path => path ++ [directoryKey viewer devId dirId]

def nameKey (statsCase : StatisticsCase) (name : List Char) (event : ParsedEvent) : Key :=
  ⟨statsCase, name, event.device.id, event.device.partition⟩

/-- Update the statistics of a name, unless it is empty. -/
def countName (statsCase : StatisticsCase) (name : List Char) (event : ParsedEvent)
    (s : FilesystemStatistics) : Except Failure FilesystemStatistics :=
  if name ≠ [] then
    s.atPath (updateIoStats event) [nameKey statsCase name event]
  else .ok s

/-- The directory, the extension and the prefix of the file. -/
def countFile (viewer : v2.FileSystemViewer) (directory : List Key) (event : ParsedEvent)
    (s : FilesystemStatistics) : Except Failure FilesystemStatistics := do
  let id := fileId event
  let s ← s.atPath (updateIoStats event) directory
  let s ← s.countName .kFileExtension (viewer.getFileExtension id) event
  s.countName .kFileNamePrefix (viewer.getFileNamePrefix id) event

def IsDiscard (event : ParsedEvent) : Prop := event.io.map ParsedIo.operation = some .Discard

instance (event : ParsedEvent) : Decidable (IsDiscard event) := inferInstanceAs (Decidable (_ = _))

def count (depth : ℕ) (viewer : v2.FileSystemViewer) (event : ParsedEvent)
    (s : FilesystemStatistics) : Option (Except Failure FilesystemStatistics) :=
  if IsDiscard event then some (s.discard event)
  else if event.file.isSome then
    (getStatisticsByIds viewer event.device.id depth (viewer.getParentId (fileId event))).map
      fun directory => s.countFile viewer directory event
  else some (.ok s)

end FilesystemStatistics

end Octf.Analytics
