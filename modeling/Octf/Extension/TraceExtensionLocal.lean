import Octf.Foundation.FileLock
import Octf.Foundation.Run
import Mathlib.Algebra.Ring.Nat

/-! The extensions of one trace on disk: a list of their headers, a record file for each, and the
objects by which threads of several processes create, commit and remove them. A step is what a
thread does between two points at which its process may die or another thread may come in. -/
namespace Octf.Extension
open Foundation

/-- `proto::TraceExtensionHeader::TraceExtensionState` -/
inductive TraceExtensionState where
  | UNDEFINED
  | INITIALIZING
  | READY
  | ERROR
  deriving DecidableEq

structure TraceExtensionHeader where
  name : String
  id : ℕ
  state : TraceExtensionState
  version : String
  deriving DecidableEq

/-- A record file: its records, and whether it has been cut to their size and made read-only. -/
structure RecordFile (E : Type) where
  records : List E
  closed : Bool
  deriving DecidableEq

/-- `TraceExtensionLocal`, with the members of its writer and of its extension lock. -/
structure TraceExtensionLocal (E : Type) where
  /-- Between the begin of its constructor and the end of its destructor. -/
  exists' : Bool
  extName : String
  hdr : TraceExtensionHeader
  /-- It has a writer, whose file is open until it is committed. -/
  writable : Bool
  isOpen : Bool
  inode : ℕ
  written : List E
  /-- The descriptor of the extension's lock file is open; the lock has been taken with it. -/
  lockFd : Bool
  locked : Bool
  /-- It has begun to remove its extension. -/
  withdrawn : Bool
  deriving DecidableEq

def TraceExtensionLocal.absent (E : Type) : TraceExtensionLocal E :=
  ⟨false, "", ⟨"", 0, .UNDEFINED, ""⟩, false, false, 0, [], false, false, false⟩

/-- What takes the lock of the list. -/
inductive ListOperation where
  | construct
  | commit
  | remove
  | destroy
  deriving DecidableEq

/-- Where a thread is in a call; a constructor holds the list that it is going to write. -/
inductive Pc where
  | lockList (op : ListOperation)
  | readList
  | lockExtension (lst : List TraceExtensionHeader)
  | clear (lst : List TraceExtensionHeader)
  | writeList (lst : List TraceExtensionHeader)
  | openWriter
  | closeWriter
  | setReady
  | removeFile (op : ListOperation)
  | rewriteList (op : ListOperation)
  | release
  deriving DecidableEq

/-- The threads that use the objects, the processes of the threads and their versions of the
framework. -/
structure Setup (P T O : Type) where
  thread : O → T
  process : T → P
  version : P → String

def Setup.processOf {P T O : Type} (setup : Setup P T O) (o : O) : P :=
  setup.process (setup.thread o)

structure Storage (P T O E : Type) where
  list : List TraceExtensionHeader
  /-- The record files by the ids of the extensions. -/
  directory : ℕ → Option ℕ
  inodes : ℕ → RecordFile E
  nextInode : ℕ
  /-- The thread that holds the lock of the list. -/
  listLock : Option T
  locks : FileLocks P O ℕ
  objects : O → TraceExtensionLocal E
  /-- The call that each thread is in. -/
  running : T → Option (O × Pc)
  dead : P → Bool
  /-- What the object that committed an extension last had written. -/
  committed : String → List E

inductive Action (P T O E : Type) where
  | construct (o : O) (extName : String)
  | write (o : O) (record : E)
  | commit (o : O)
  | remove (o : O)
  | destroy (o : O)
  /-- The next step of a call; a read-only file may resist its removal. -/
  | advance (t : T) (removed : Bool)
  | die (p : P)

namespace Storage

variable {P T O E : Type}

def init : Storage P T O E :=
  ⟨[], fun _ => none, fun _ => ⟨[], false⟩, 0, none, .init, fun _ => .absent E, fun _ => none,
    fun _ => false, fun _ => []⟩

section Objects
variable [DecidableEq O]

def setObject (o : O) (x : TraceExtensionLocal E) (s : Storage P T O E) : Storage P T O E :=
  { s with objects := Function.update s.objects o x }

theorem objects_setObject_of_ne (o : O) (x : TraceExtensionLocal E) (s : Storage P T O E) :
    ∀ o' ≠ o, (s.setObject o x).objects o' = s.objects o' :=
  fun _ hne => Function.update_of_ne hne _ _

end Objects

section Threads
variable [DecidableEq T]

def goTo (t : T) (o : O) (pc : Pc) (s : Storage P T O E) : Storage P T O E :=
  { s with running := Function.update s.running t (some (o, pc)) }

/-- The call returns, or ends with an exception. -/
def leave (t : T) (s : Storage P T O E) : Storage P T O E :=
  { s with running := Function.update s.running t none }

/-- The lock of the list is released, and the call ends. -/
def unlockList (t : T) (s : Storage P T O E) : Storage P T O E :=
  { s.leave t with listLock := none }

end Threads

variable [DecidableEq P] [DecidableEq T] [DecidableEq O]

/-- `max` of the ids. -/
def maxId (lst : List TraceExtensionHeader) : ℕ :=
  lst.foldl (fun max extHdr => Nat.max max extHdr.id) 0

/-- The list with the header put in its place, or added. -/
def store (hdr : TraceExtensionHeader) (lst : List TraceExtensionHeader) :
    List TraceExtensionHeader :=
  if lst.any fun extHdr => extHdr.name = hdr.name then
    lst.map fun extHdr => if extHdr.name = hdr.name then hdr else extHdr
  else lst ++ [hdr]

/-- The header with which an object builds its extension. -/
def building (extName : String) (id : ℕ) (version : String) : TraceExtensionHeader :=
  ⟨extName, id, .INITIALIZING, version⟩

/-- `initTraceExtension`, from the list read to the decision whether the extension is built. -/
def readList (setup : Setup P T O) (o : O) (s : Storage P T O E) : Storage P T O E :=
  let t := setup.thread o
  let p := setup.process t
  let x := s.objects o
  match s.list.filter fun extHdr => extHdr.name = x.extName with
  | _ :: _ :: _ => (s.setObject o (.absent E)).unlockList t -- name duplication
  | found =>
    -- an empty name is taken for an extension that has not been found
    match found.filter fun extHdr => extHdr.name ≠ "" with
    | [] =>
      let hdr := building x.extName ((maxId s.list + 1) % 2 ^ 64) (setup.version p)
      (s.setObject o { x with hdr := hdr }).goTo t o (.lockExtension (store hdr s.list))
    | found :: _ =>
      let hdr := building x.extName found.id (setup.version p)
      if found.state = .READY then
        if found.version ≠ setup.version p then
          (s.setObject o { x with hdr := hdr }).goTo t o (.lockExtension (store hdr s.list))
        else (s.setObject o { x with hdr := found }).unlockList t
      else if s.locks.Free p found.id then
        -- the lock is free, so its builder has not finished
        let s := { s with locks := s.locks.acquire p o found.id }
        (s.setObject o { x with hdr := hdr, lockFd := true, locked := true }).goTo t o
          (.clear (store hdr s.list))
      else
        -- the descriptor stays open if it is another process that holds the lock
        let lockFd := decide (s.locks.mutex p found.id = none)
        (s.setObject o { x with hdr := found, lockFd := lockFd }).unlockList t

/-- What a constructor makes of the list. -/
inductive ReadsList (setup : Setup P T O) (s : Storage P T O E) (o : O) : Storage P T O E → Prop
  | duplicate : ReadsList setup s o ((s.setObject o (.absent E)).unlockList (setup.thread o))
  | new (hname : ∀ e ∈ s.list, e.name = (s.objects o).extName → e.name = "")
      (hdr : TraceExtensionHeader)
      (hhdr : hdr = building (s.objects o).extName ((maxId s.list + 1) % 2 ^ 64)
        (setup.version (setup.processOf o))) :
      ReadsList setup s o ((s.setObject o { s.objects o with hdr := hdr }).goTo (setup.thread o) o
        (.lockExtension (store hdr s.list)))
  | stale (found hdr : TraceExtensionHeader) (hfound : found ∈ s.list)
      (hname : found.name = (s.objects o).extName) (hready : found.state = .READY)
      (hversion : found.version ≠ setup.version (setup.processOf o))
      (hhdr : hdr = building (s.objects o).extName found.id
        (setup.version (setup.processOf o))) :
      ReadsList setup s o ((s.setObject o { s.objects o with hdr := hdr }).goTo (setup.thread o) o
        (.lockExtension (store hdr s.list)))
  | ready (found : TraceExtensionHeader) (hfound : found ∈ s.list)
      (hname : found.name = (s.objects o).extName) (hready : found.state = .READY) :
      ReadsList setup s o
        ((s.setObject o { s.objects o with hdr := found }).unlockList (setup.thread o))
  | abandoned (found hdr : TraceExtensionHeader) (hfound : found ∈ s.list)
      (hname : found.name = (s.objects o).extName) (hready : found.state ≠ .READY)
      (hfree : s.locks.Free (setup.processOf o) found.id)
      (hhdr : hdr = building (s.objects o).extName found.id
        (setup.version (setup.processOf o))) :
      ReadsList setup s o
        (({ s with locks := s.locks.acquire (setup.processOf o) o found.id }.setObject o
          { s.objects o with hdr := hdr, lockFd := true, locked := true }).goTo (setup.thread o) o
          (.clear (store hdr s.list)))
  | busy (found : TraceExtensionHeader) (lockFd : Bool) (hfound : found ∈ s.list)
      (hname : found.name = (s.objects o).extName) (hready : found.state ≠ .READY) :
      ReadsList setup s o ((s.setObject o
        { s.objects o with hdr := found, lockFd := lockFd }).unlockList (setup.thread o))

theorem readList_spec (setup : Setup P T O) (s : Storage P T O E) (o : O) :
    ReadsList setup s o (s.readList setup o) := by
  unfold readList
  dsimp only
  split
  · exact .duplicate
  · split
    · rename_i hnone
      refine .new (fun e he hname => ?_) _ rfl
      by_contra hne
      have hmem : e ∈ (s.list.filter fun extHdr => extHdr.name = (s.objects o).extName).filter
          fun extHdr => extHdr.name ≠ "" :=
        List.mem_filter.mpr ⟨List.mem_filter.mpr ⟨he, by simpa using hname⟩, by simpa using hne⟩
      rw [hnone] at hmem
      cases hmem
    · rename_i found rest hfound
      have hmem : found ∈ (s.list.filter fun extHdr =>
          extHdr.name = (s.objects o).extName).filter fun extHdr => extHdr.name ≠ "" := by
        rw [hfound]
        exact List.mem_cons_self
      obtain ⟨hlist, hname⟩ := List.mem_filter.mp (List.mem_of_mem_filter hmem)
      have hname' : found.name = (s.objects o).extName := of_decide_eq_true hname
      split_ifs with hready hversion hfree
      · exact .stale found _ hlist hname' hready hversion rfl
      · exact .ready found hlist hname' hready
      · exact .abandoned found _ hlist hname' hready hfree rfl
      · exact .busy found _ hlist hname' hready

/-- A blocking lock. -/
def lockExtension (setup : Setup P T O) (o : O) (lst : List TraceExtensionHeader)
    (s : Storage P T O E) : Storage P T O E :=
  let t := setup.thread o
  let p := setup.process t
  let x := s.objects o
  if s.locks.Free p x.hdr.id then
    let s := { s with locks := s.locks.acquire p o x.hdr.id }
    (s.setObject o { x with lockFd := true, locked := true }).goTo t o (.clear lst)
  else s

/-- The inode of an extension's record file, which is created if it is missing. -/
def openFile (id : ℕ) (s : Storage P T O E) : ℕ × Storage P T O E :=
  match s.directory id with
  | some inode => (inode, s)
  | none =>
    (s.nextInode, { s with
      directory := Function.update s.directory id (some s.nextInode)
      inodes := Function.update s.inodes s.nextInode ⟨[], false⟩
      nextInode := s.nextInode + 1 })

/-- `makeWritable` and `clear` -/
def clear (setup : Setup P T O) (o : O) (lst : List TraceExtensionHeader)
    (s : Storage P T O E) : Storage P T O E :=
  let file := s.openFile (s.objects o).hdr.id
  { file.2 with inodes := Function.update file.2.inodes file.1 ⟨[], false⟩ }.goTo (setup.thread o) o
    (.writeList lst)

def openWriter (setup : Setup P T O) (o : O) (s : Storage P T O E) : Storage P T O E :=
  let x := s.objects o
  let file := s.openFile x.hdr.id
  (file.2.setObject o { x with
    writable := true, isOpen := true, inode := file.1, written := []
    withdrawn := false }).unlockList (setup.thread o)

/-- `Writer::write`: the record is put behind those this writer has written. -/
def write (o : O) (record : E) (s : Storage P T O E) : Storage P T O E :=
  let x := s.objects o
  let file := s.inodes x.inode
  let records := file.records.take x.written.length ++ record ::
    file.records.drop (x.written.length + 1)
  { s with inodes := Function.update s.inodes x.inode { file with records := records } }.setObject o
    { x with written := x.written ++ [record] }

/-- The file of the writer is cut to the size of what it has written. -/
def closeFile (o : O) (s : Storage P T O E) : Storage P T O E :=
  let x := s.objects o
  let records := (s.inodes x.inode).records.take x.written.length
  { s with inodes := Function.update s.inodes x.inode ⟨records, true⟩ }.setObject o
    { x with isOpen := false }

/-- The serializer can be closed only once. -/
def closeWriter (setup : Setup P T O) (o : O) (s : Storage P T O E) : Storage P T O E :=
  let t := setup.thread o
  if (s.objects o).isOpen then (s.closeFile o).goTo t o (.lockList .commit) else s.leave t

/-- The first header of the name becomes ready. -/
def markReady (name : String) : List TraceExtensionHeader → List TraceExtensionHeader
  | [] => []
  | extHdr :: lst =>
    if extHdr.name = name then { extHdr with state := .READY } :: lst
    else extHdr :: markReady name lst

/-- `Writer::commit`, with the list locked. -/
def setReady (setup : Setup P T O) (o : O) (s : Storage P T O E) : Storage P T O E :=
  let t := setup.thread o
  let x := s.objects o
  if s.list.any fun extHdr => extHdr.name = x.extName then
    { s with
      list := markReady x.extName s.list
      committed := Function.update s.committed x.extName x.written }.setObject o
      { x with hdr := { x.hdr with state := .READY } } |>.unlockList t
  else s.unlockList t

/-- A read-only file may resist its removal. -/
def Resists (id : ℕ) (removed : Bool) (s : Storage P T O E) : Bool :=
  (s.directory id).any fun inode => (s.inodes inode).closed && !removed

def removeFile (setup : Setup P T O) (o : O) (op : ListOperation) (removed : Bool)
    (s : Storage P T O E) : Storage P T O E :=
  let x := s.objects o
  let directory :=
    if s.Resists x.hdr.id removed then s.directory else Function.update s.directory x.hdr.id none
  ({ s with directory := directory }.setObject o { x with withdrawn := true }).goTo
    (setup.thread o) o (.rewriteList op)

def rewriteList (setup : Setup P T O) (o : O) (op : ListOperation) (s : Storage P T O E) :
    Storage P T O E :=
  let t := setup.thread o
  let extName := (s.objects o).extName
  let s := { s with list := s.list.filter fun extHdr => extHdr.name ≠ extName }
  if op = .destroy then { s.goTo t o .release with listLock := none } else s.unlockList t

/-- The members are destroyed: the lock is closed, and the file of a writer. -/
def release (setup : Setup P T O) (o : O) (s : Storage P T O E) : Storage P T O E :=
  let t := setup.thread o
  let p := setup.process t
  let x := s.objects o
  let locks :=
    if x.locked then s.locks.release p x.hdr.id
    else if x.lockFd then s.locks.close p x.hdr.id
    else s.locks
  let s := { s with locks := locks }
  let s := if x.isOpen then s.closeFile o else s
  (s.setObject o (.absent E)).leave t

/-- The next step of a call. -/
def advance (setup : Setup P T O) (o : O) (pc : Pc) (removed : Bool) (s : Storage P T O E) :
    Storage P T O E :=
  match pc with
  | .lockList op =>
    match s.listLock with
    | some _ => s
    | none =>
      let t := setup.thread o
      let next : Pc := match op with
        | .construct => .readList
        | .commit => .setReady
        | .remove | .destroy => .removeFile op
      { s.goTo t o next with listLock := some t }
  | .readList => s.readList setup o
  | .lockExtension lst => s.lockExtension setup o lst
  | .clear lst => s.clear setup o lst
  | .writeList lst => { s with list := lst }.goTo (setup.thread o) o .openWriter
  | .openWriter => s.openWriter setup o
  | .closeWriter => s.closeWriter setup o
  | .setReady => s.setReady setup o
  | .removeFile op => s.removeFile setup o op removed
  | .rewriteList op => s.rewriteList setup o op
  | .release => s.release setup o

/-- A process dies in whatever its threads do; its descriptors are closed. -/
def die (setup : Setup P T O) (p : P) (s : Storage P T O E) : Storage P T O E :=
  { s with
    listLock := s.listLock.filter fun t => setup.process t ≠ p
    locks := s.locks.die p
    objects := fun o => if setup.processOf o = p then .absent E else s.objects o
    running := fun t => if setup.process t = p then none else s.running t
    dead := Function.update s.dead p true }

/-- A thread of a living process is between two calls. -/
def Idle (setup : Setup P T O) (o : O) (s : Storage P T O E) : Prop :=
  s.running (setup.thread o) = none ∧ s.dead (setup.processOf o) = false

instance (setup : Setup P T O) (o : O) (s : Storage P T O E) : Decidable (s.Idle setup o) :=
  decidable_of_iff ((s.running (setup.thread o)).isNone = true ∧ s.dead (setup.processOf o) = false)
    (by rw [Option.isNone_iff_eq_none]; rfl)

def step (setup : Setup P T O) (action : Action P T O E) (s : Storage P T O E) :
    Storage P T O E :=
  match action with
  | .construct o extName =>
    if s.Idle setup o ∧ (s.objects o).exists' = false then
      (s.setObject o { TraceExtensionLocal.absent E with exists' := true, extName := extName }).goTo
        (setup.thread o) o (.lockList .construct)
    else s
  | .write o record =>
    if s.Idle setup o ∧ (s.objects o).isOpen = true then s.write o record else s
  | .commit o =>
    if s.Idle setup o ∧ (s.objects o).writable = true then
      s.goTo (setup.thread o) o .closeWriter
    else s
  | .remove o =>
    if s.Idle setup o ∧ (s.objects o).exists' = true then
      s.goTo (setup.thread o) o (.lockList .remove)
    else s
  | .destroy o =>
    if s.Idle setup o ∧ (s.objects o).exists' = true then
      let x := s.objects o
      if x.writable ∧ (x.hdr.state = .INITIALIZING ∨ x.hdr.state = .ERROR) then
        s.goTo (setup.thread o) o (.lockList .destroy)
      else s.goTo (setup.thread o) o .release
    else s
  | .advance t removed =>
    match s.running t with
    | some (o, pc) => s.advance setup o pc removed
    | none => s
  | .die p => s.die setup p

end Storage

end Octf.Extension
