import Octf.Extension.ExtensionBuilds
import Octf.Foundation.WaitsFor

/-! Waiting for the locks of the list and of the extensions: nobody waits in a circle as long as no
thread goes to the list with the lock of an extension that another one may be building anew. -/
namespace Octf.Extension
open Foundation Relation

/-- A call that waits for a lock, or goes on to do so with the list locked. -/
def Pc.Waits : Pc → Prop
  | .lockList _ | .readList | .lockExtension _ => True
  | _ => False

namespace Storage

variable {P T O E : Type} [DecidableEq P] [DecidableEq T] [DecidableEq O]
  {setup : Setup P T O} {s s' : Storage P T O E} {o o' : O} {t t' : T}

/-- A thread waits for the lock of the list, or for that of an extension. -/
inductive Blocked (setup : Setup P T O) (s : Storage P T O E) (t : T) : Prop
  | list (o : O) (op : ListOperation) (hpc : s.running t = some (o, .lockList op))
      (hlock : s.listLock ≠ none)
  | extension (o : O) (lst : List TraceExtensionHeader)
      (hpc : s.running t = some (o, .lockExtension lst))
      (hlock : ¬ s.locks.Free (setup.process t) (s.objects o).hdr.id)

/-- A thread waits for a lock that another one, or itself, has. -/
inductive WaitsFor (setup : Setup P T O) (s : Storage P T O E) (t t' : T) : Prop
  | list (o : O) (op : ListOperation) (hpc : s.running t = some (o, .lockList op))
      (hlock : s.listLock = some t')
  | extension (o o' : O) (lst : List TraceExtensionHeader)
      (hpc : s.running t = some (o, .lockExtension lst)) (hthread : setup.thread o' = t')
      (hheld : FileLocks.Held setup.processOf s.locks o' (s.objects o).hdr.id)

/-- The lock of an extension that others do not wait for: it is being built, or it is ready for
every process. -/
def Harmless (setup : Setup P T O) (x : TraceExtensionLocal E) : Prop :=
  Live x ∧ (x.hdr.state = .READY → ∀ p, setup.version p = x.hdr.version)

/-- All extensions that a thread has locked are harmless. -/
def HarmlessThread (setup : Setup P T O) (s : Storage P T O E) (t : T) : Prop :=
  ∀ o, setup.thread o = t → (s.objects o).locked = true → Harmless setup (s.objects o)

/-- A thread goes to the list only with harmless locks. -/
def KeepsOrder (setup : Setup P T O) (action : Action P T O E) (s : Storage P T O E) : Prop :=
  match action with
  | .construct o _ | .remove o => HarmlessThread setup s (setup.thread o)
  | .destroy o => (s.objects o).hdr.state = .INITIALIZING ∨ (s.objects o).hdr.state = .ERROR →
      (s.objects o).writable = true → HarmlessThread setup s (setup.thread o)
  | .advance t _ => ∀ call ∈ s.running t, call.2 = .closeWriter → HarmlessThread setup s t
  | _ => True

instance [Fintype P] (setup : Setup P T O) (x : TraceExtensionLocal E) :
    Decidable (Harmless setup x) := inferInstanceAs (Decidable (_ ∧ _))

instance [Fintype P] [Fintype O] (setup : Setup P T O) (s : Storage P T O E) (t : T) :
    Decidable (HarmlessThread setup s t) :=
  inferInstanceAs (Decidable (∀ o, setup.thread o = t → (s.objects o).locked = true →
    Harmless setup (s.objects o)))

instance [Fintype P] [Fintype O] (setup : Setup P T O) (action : Action P T O E)
    (s : Storage P T O E) : Decidable (KeepsOrder setup action s) :=
  match action with
  | .construct o _ | .remove o =>
    inferInstanceAs (Decidable (HarmlessThread setup s (setup.thread o)))
  | .destroy _ => inferInstanceAs (Decidable (_ → _ → _))
  | .advance t _ => inferInstanceAs (Decidable (∀ call ∈ s.running t, call.2 = .closeWriter →
      HarmlessThread setup s t))
  | .write _ _ | .commit _ | .die _ => .isTrue trivial

/-- The locks that are taken are those of objects. -/
structure Covered (setup : Setup P T O) (s : Storage P T O E) : Prop where
  mutex : ∀ p id o, s.locks.mutex p id = some o →
    setup.processOf o = p ∧ (s.objects o).locked = true ∧ (s.objects o).hdr.id = id
  record : ∀ p id, s.locks.record id = some p →
    ∃ o, setup.processOf o = p ∧ (s.objects o).locked = true ∧ (s.objects o).hdr.id = id

/-- Who may wait for a lock has only harmless ones. -/
def Ordered (setup : Setup P T O) (s : Storage P T O E) : Prop :=
  ∀ t o pc, s.running t = some (o, pc) → pc.Waits → HarmlessThread setup s t

namespace Covered

omit [DecidableEq P] [DecidableEq T] [DecidableEq O] in
theorem init : (init : Storage P T O E).Covered setup where
  mutex _ _ _ h := by cases h
  record _ _ h := by cases h

omit [DecidableEq P] [DecidableEq T] [DecidableEq O] in
/-- A step that leaves the locks, and what has been locked. -/
theorem of_same (h : s.Covered setup) (hlocks : s'.locks = s.locks)
    (hobjects : ∀ o, (s.objects o).locked = true →
      (s'.objects o).locked = true ∧ (s'.objects o).hdr.id = (s.objects o).hdr.id) :
    s'.Covered setup := by
  refine ⟨fun p id o hmutex => ?_, fun p id hrecord => ?_⟩
  · rw [hlocks] at hmutex
    obtain ⟨hprocess, hlocked, hid⟩ := h.mutex p id o hmutex
    obtain ⟨hlocked', hid'⟩ := hobjects o hlocked
    exact ⟨hprocess, hlocked', hid'.trans hid⟩
  · rw [hlocks] at hrecord
    obtain ⟨o, hprocess, hlocked, hid⟩ := h.record p id hrecord
    obtain ⟨hlocked', hid'⟩ := hobjects o hlocked
    exact ⟨o, hprocess, hlocked', hid'.trans hid⟩

omit [DecidableEq T] in
/-- An object takes a lock. -/
theorem acquire (h : s.Covered setup) {x : TraceExtensionLocal E}
    (hobjects : s'.objects = Function.update s.objects o x)
    (hlocks : s'.locks = s.locks.acquire (setup.processOf o) o x.hdr.id) (hx : x.locked = true)
    (ho : (s.objects o).locked = false) : s'.Covered setup := by
  have hself : s'.objects o = x := by rw [hobjects, Function.update_self]
  have hother : ∀ o', (s.objects o').locked = true → s'.objects o' = s.objects o' := by
    intro o' hlocked
    have hne : o' ≠ o := by
      rintro rfl
      rw [hlocked] at ho
      cases ho
    rw [hobjects, Function.update_of_ne hne]
  refine ⟨fun p id o' hmutex => ?_, fun p id hrecord => ?_⟩
  · rw [hlocks] at hmutex
    simp only [FileLocks.acquire] at hmutex
    have hbefore : s.locks.mutex p id = some o' → setup.processOf o' = p ∧
        (s'.objects o').locked = true ∧ (s'.objects o').hdr.id = id := by
      intro hmutex
      obtain ⟨hprocess, hlocked, hid⟩ := h.mutex p id o' hmutex
      rw [hother o' hlocked]
      exact ⟨hprocess, hlocked, hid⟩
    by_cases hp : p = setup.processOf o
    · subst hp
      rw [Function.update_self] at hmutex
      by_cases hid : id = x.hdr.id
      · subst hid
        rw [Function.update_self] at hmutex
        obtain rfl := Option.some.inj hmutex
        rw [hself]
        exact ⟨rfl, hx, rfl⟩
      · rw [Function.update_of_ne hid] at hmutex
        exact hbefore hmutex
    · rw [Function.update_of_ne hp] at hmutex
      exact hbefore hmutex
  · rw [hlocks] at hrecord
    simp only [FileLocks.acquire] at hrecord
    by_cases hid : id = x.hdr.id
    · subst hid
      rw [Function.update_self] at hrecord
      obtain rfl := Option.some.inj hrecord
      exact ⟨o, rfl, hself ▸ hx, by rw [hself]⟩
    · rw [Function.update_of_ne hid] at hrecord
      obtain ⟨o', hprocess, hlocked, hid'⟩ := h.record p id hrecord
      refine ⟨o', hprocess, ?_⟩
      rw [hother o' hlocked]
      exact ⟨hlocked, hid'⟩

omit [DecidableEq P] [DecidableEq T] in
/-- A step of one object that leaves the locks, and its own. -/
theorem keeps (h : s.Covered setup) {x : TraceExtensionLocal E}
    (hobjects : s'.objects = Function.update s.objects o x) (hlocks : s'.locks = s.locks)
    (hx : (s.objects o).locked = true → x.locked = true ∧ x.hdr.id = (s.objects o).hdr.id) :
    s'.Covered setup := by
  refine h.of_same hlocks fun o' hlocked => ?_
  rw [hobjects]
  by_cases ho : o' = o
  · subst ho
    rw [Function.update_self]
    exact hx hlocked
  · rw [Function.update_of_ne ho]
    exact ⟨hlocked, rfl⟩

theorem release (h : s.Covered setup) (hlocked : s.Locked setup) :
    (s.release setup o).Covered setup := by
  obtain ⟨hobjects, -⟩ := release_frame setup o s
  have hother : ∀ o' ≠ o, (s.release setup o).objects o' = s.objects o' := fun o' hne => by
    rw [hobjects, Function.update_of_ne hne]
  have hlocks := release_locks setup o s
  -- what is left of the locks does not belong to the object
  have hmutex : ∀ p id o', (s.release setup o).locks.mutex p id = some o' →
      s.locks.mutex p id = some o' ∧ o' ≠ o := by
    intro p id o' hmutex
    rw [hlocks] at hmutex
    split_ifs at hmutex with hlock hfd
    · simp only [FileLocks.release, FileLocks.close_mutex] at hmutex
      by_cases hp : p = setup.processOf o
      · subst hp
        rw [Function.update_self] at hmutex
        by_cases hid : id = (s.objects o).hdr.id
        · subst hid
          rw [Function.update_self] at hmutex
          cases hmutex
        · rw [Function.update_of_ne hid] at hmutex
          refine ⟨hmutex, ?_⟩
          rintro rfl
          exact hid (h.mutex _ _ _ hmutex).2.2.symm
      · rw [Function.update_of_ne hp] at hmutex
        refine ⟨hmutex, ?_⟩
        rintro rfl
        exact hp (h.mutex _ _ _ hmutex).1.symm
    · rw [FileLocks.close_mutex] at hmutex
      refine ⟨hmutex, ?_⟩
      rintro rfl
      exact hlock (h.mutex _ _ _ hmutex).2.1
    · refine ⟨hmutex, ?_⟩
      rintro rfl
      exact hlock (h.mutex _ _ _ hmutex).2.1
  have hrecord : ∀ p id, (s.release setup o).locks.record id = some p →
      s.locks.record id = some p ∧ ¬ ((s.objects o).locked = true ∧ id = (s.objects o).hdr.id) := by
    intro p id hrecord
    rw [hlocks] at hrecord
    split_ifs at hrecord with hlock hfd
    · have hclosed := FileLocks.record_of_close hrecord
      refine ⟨hclosed.1, ?_⟩
      rintro ⟨-, rfl⟩
      refine hclosed.2 rfl ?_
      rw [(hlocked.held o hlock).record] at hclosed
      exact (Option.some.inj hclosed.1).symm
    · exact ⟨(FileLocks.record_of_close hrecord).1, fun hlocked => hlock hlocked.1⟩
    · exact ⟨hrecord, fun hlocked => hlock hlocked.1⟩
  refine ⟨fun p id o' hmutex' => ?_, fun p id hrecord' => ?_⟩
  · obtain ⟨hbefore, hne⟩ := hmutex p id o' hmutex'
    rw [hother o' hne]
    exact h.mutex p id o' hbefore
  · obtain ⟨hbefore, hown⟩ := hrecord p id hrecord'
    obtain ⟨o', hprocess, hlock, hid⟩ := h.record p id hbefore
    have hne : o' ≠ o := by
      rintro rfl
      exact hown ⟨hlock, hid.symm⟩
    exact ⟨o', hprocess, hother o' hne ▸ hlock, hother o' hne ▸ hid⟩

omit [DecidableEq T] [DecidableEq O] in
theorem die (h : s.Covered setup) (p : P) : (s.die setup p).Covered setup := by
  have hsame : ∀ o, setup.processOf o ≠ p → (s.die setup p).objects o = s.objects o :=
    fun o hp => if_neg hp
  refine ⟨fun p' id o hmutex => ?_, fun p' id hrecord => ?_⟩
  · simp only [Storage.die, FileLocks.die] at hmutex
    by_cases hp : p' = p
    · subst hp
      rw [Function.update_self] at hmutex
      cases hmutex
    · rw [Function.update_of_ne hp] at hmutex
      obtain ⟨hprocess, hlocked, hid⟩ := h.mutex p' id o hmutex
      rw [hsame o (by rw [hprocess]; exact hp)]
      exact ⟨hprocess, hlocked, hid⟩
  · simp only [Storage.die, FileLocks.die] at hrecord
    split_ifs at hrecord with hown
    obtain ⟨o, hprocess, hlocked, hid⟩ := h.record p' id hrecord
    have hp : setup.processOf o ≠ p := by
      rintro rfl
      exact hown (hprocess ▸ hrecord)
    exact ⟨o, hprocess, hsame o hp ▸ hlocked, hsame o hp ▸ hid⟩

theorem advance (h : s.Covered setup) (hlocked : s.Locked setup) {pc : Pc} {removed : Bool}
    (hpc : s.running (setup.thread o) = some (o, pc)) :
    (s.advance setup o pc removed).Covered setup := by
  have hid : (s.objects o).locked = true →
      (s.objects o).locked = true ∧ (s.objects o).hdr.id = (s.objects o).hdr.id := fun hlock =>
    ⟨hlock, rfl⟩
  cases pc with
  | lockList op =>
    unfold Storage.advance
    dsimp only
    split
    · exact h
    · exact h.of_same rfl fun _ hlock => ⟨hlock, rfl⟩
  | readList =>
    have hunlocked := hlocked.before _ o _ hpc trivial
    have hnever : ∀ q : Prop, (s.objects o).locked = true → q := fun q hlock => by
      rw [hunlocked] at hlock
      cases hlock
    change (s.readList setup o).Covered setup
    have hspec := readList_spec setup s o
    generalize s.readList setup o = s' at hspec
    cases hspec with
    | duplicate | ready | busy | new | stale => exact h.keeps rfl rfl (hnever _)
    | abandoned found hdr _ _ _ _ hhdr =>
      refine h.acquire rfl ?_ rfl hunlocked
      rw [hhdr]
      rfl
  | lockExtension lst =>
    change (s.lockExtension setup o lst).Covered setup
    unfold Storage.lockExtension
    dsimp only
    split_ifs
    · exact h.acquire (x := { s.objects o with lockFd := true, locked := true }) rfl rfl rfl
        (hlocked.before _ o _ hpc trivial)
    · exact h
  | clear lst =>
    obtain ⟨hobjects, -, hlocks, -, -⟩ := openFile_frame (s.objects o).hdr.id s
    refine h.of_same hlocks fun o' hlock => ?_
    change ((s.openFile (s.objects o).hdr.id).2.objects o').locked = true ∧
      ((s.openFile (s.objects o).hdr.id).2.objects o').hdr.id = _
    rw [hobjects]
    exact ⟨hlock, rfl⟩
  | openWriter =>
    obtain ⟨hobjects, -, hlocks, -, -⟩ := openFile_frame (s.objects o).hdr.id s
    refine h.keeps (o := o) (x := { s.objects o with
      writable := true, isOpen := true, inode := (s.openFile (s.objects o).hdr.id).1, written := [],
      withdrawn := false }) ?_ hlocks hid
    change Function.update _ o _ = _
    rw [hobjects]
  | writeList lst => exact h.of_same rfl fun _ hlock => ⟨hlock, rfl⟩
  | closeWriter =>
    change (s.closeWriter setup o).Covered setup
    unfold Storage.closeWriter
    dsimp only
    split_ifs
    · exact h.keeps (x := { s.objects o with isOpen := false }) rfl rfl hid
    · exact h.of_same rfl fun _ hlock => ⟨hlock, rfl⟩
  | setReady =>
    change (s.setReady setup o).Covered setup
    unfold Storage.setReady
    dsimp only
    split_ifs
    · exact h.keeps (o := o) rfl rfl hid
    · exact h.of_same rfl fun _ hlock => ⟨hlock, rfl⟩
  | removeFile op => exact h.keeps (x := { s.objects o with withdrawn := true }) rfl rfl hid
  | rewriteList op =>
    change (s.rewriteList setup o op).Covered setup
    unfold Storage.rewriteList
    dsimp only
    split_ifs <;> exact h.of_same rfl fun _ hlock => ⟨hlock, rfl⟩
  | release => exact h.release hlocked

theorem step (h : s.Covered setup) (hlocked : s.Locked setup) (action : Action P T O E) :
    (s.step setup action).Covered setup := by
  have hsteps := hlocked.steps action
  generalize s.step setup action = s' at hsteps
  cases hsteps with
  | construct o extName _ habsent =>
    refine h.keeps (o := o) rfl rfl fun hlock => ?_
    rw [hlocked.absent o habsent] at hlock
    cases hlock
  | write o record => exact h.keeps (o := o) rfl rfl fun hlock => ⟨hlock, rfl⟩
  | commit o | remove o | destroy o | release o => exact h.of_same rfl fun _ hlock => ⟨hlock, rfl⟩
  | advance o pc removed hpc => exact h.advance hlocked hpc
  | die p => exact h.die p
  | stay => exact h

end Covered

namespace Ordered

omit [DecidableEq P] [DecidableEq O] in
/-- A step of the call of one object: its own thread has only harmless locks if it may wait. -/
theorem of_object (h : s.Ordered setup) (hlocked : s.Locked setup) {c : Option Pc}
    (hobjects : ∀ o' ≠ o, s'.objects o' = s.objects o')
    (hrunning : s'.running =
      Function.update s.running (setup.thread o) (c.map fun pc => (o, pc)))
    (hwaits : ∀ pc ∈ c, pc.Waits → HarmlessThread setup s' (setup.thread o)) :
    s'.Ordered setup := by
  intro t o' pc hpc hpc'
  rcases hlocked.calls hrunning hpc with ⟨rfl, rfl, hmem⟩ | ⟨hpc, ht, -⟩
  · exact hwaits pc hmem hpc'
  · intro o'' hthread hlock
    have hne : o'' ≠ o := by
      rintro rfl
      exact ht hthread.symm
    rw [hobjects o'' hne] at hlock ⊢
    exact h t o' pc hpc hpc' o'' hthread hlock

omit [DecidableEq P] [DecidableEq O] in
/-- A step after which the thread does not wait. -/
theorem outside (h : s.Ordered setup) (hlocked : s.Locked setup) {c : Option Pc}
    (hobjects : ∀ o' ≠ o, s'.objects o' = s.objects o')
    (hrunning : s'.running =
      Function.update s.running (setup.thread o) (c.map fun pc => (o, pc)))
    (hc : ∀ pc ∈ c, ¬ pc.Waits) : s'.Ordered setup :=
  h.of_object hlocked hobjects hrunning fun pc hmem hwaits => absurd hwaits (hc pc hmem)

omit [DecidableEq P] [DecidableEq T] in
/-- An object that is not locked, or as harmless as before, does not change its thread's locks. -/
theorem harmless (h : HarmlessThread setup s t) {x : TraceExtensionLocal E}
    (hobjects : s'.objects = Function.update s.objects o x)
    (hx : x.locked = true → (s.objects o).locked = true ∧
      (Harmless setup (s.objects o) → Harmless setup x)) : HarmlessThread setup s' t := by
  intro o' hthread hlock
  by_cases ho : o' = o
  · subst ho
    rw [hobjects, Function.update_self] at hlock ⊢
    obtain ⟨hbefore, himp⟩ := hx hlock
    exact himp (h o' hthread hbefore)
  · rw [hobjects, Function.update_of_ne ho] at hlock ⊢
    exact h o' hthread hlock

theorem advance (h : s.Ordered setup) (hlocked : s.Locked setup) {pc : Pc} {removed : Bool}
    (hpc : s.running (setup.thread o) = some (o, pc))
    (hkeeps : pc = .closeWriter → HarmlessThread setup s (setup.thread o)) :
    (s.advance setup o pc removed).Ordered setup := by
  cases pc with
  | lockList op =>
    have hharmless := h _ o _ hpc trivial
    unfold Storage.advance
    dsimp only
    split
    · exact h
    · exact h.of_object (c := some _) hlocked (fun _ _ => rfl) rfl fun _ _ _ => hharmless
  | readList =>
    have hharmless := h _ o _ hpc trivial
    have hunlocked := hlocked.before _ o _ hpc trivial
    have hnever : ∀ q : Prop, (s.objects o).locked = true → q := fun q hlock => by
      rw [hunlocked] at hlock
      cases hlock
    change (s.readList setup o).Ordered setup
    have hspec := readList_spec setup s o
    generalize s.readList setup o = s' at hspec
    cases hspec with
    | duplicate | ready | busy =>
      exact h.outside (c := none) hlocked (objects_setObject_of_ne o _ s) rfl (by simp)
    | new | stale =>
      exact h.of_object (c := some (.lockExtension _)) hlocked (objects_setObject_of_ne o _ s)
        rfl fun _ _ _ =>
        harmless hharmless rfl (hnever _)
    | abandoned =>
      refine h.outside (c := some (.clear _)) hlocked (objects_setObject_of_ne o _ s) rfl ?_
      rintro pc ⟨⟩ ⟨⟩
  | lockExtension lst =>
    change (s.lockExtension setup o lst).Ordered setup
    unfold Storage.lockExtension
    dsimp only
    split_ifs
    · refine h.outside (c := some (.clear lst)) hlocked (objects_setObject_of_ne o _ s) rfl ?_
      rintro pc ⟨⟩ ⟨⟩
    · exact h
  | clear lst =>
    obtain ⟨hobjects, hrunning, -, -, -⟩ := openFile_frame (s.objects o).hdr.id s
    refine h.outside (c := some (.writeList lst)) hlocked (fun o' _ => congrFun hobjects o')
      (congrArg (Function.update · _ _) hrunning) ?_
    rintro pc ⟨⟩ ⟨⟩
  | writeList lst =>
    refine h.outside (c := some .openWriter) hlocked (fun _ _ => rfl) rfl ?_
    rintro pc ⟨⟩ ⟨⟩
  | openWriter =>
    obtain ⟨hobjects, hrunning, -, -, -⟩ := openFile_frame (s.objects o).hdr.id s
    refine h.outside (c := none) hlocked (fun o' hne => ?_)
      (congrArg (Function.update · _ _) hrunning)
      (by simp)
    exact (Function.update_of_ne hne _ _).trans (congrFun hobjects o')
  | closeWriter =>
    have hharmless := hkeeps rfl
    change (s.closeWriter setup o).Ordered setup
    unfold Storage.closeWriter
    dsimp only
    split_ifs
    · exact h.of_object (c := some (.lockList .commit)) hlocked (objects_setObject_of_ne o _ s)
        rfl fun _ _ _ =>
        harmless (x := { s.objects o with isOpen := false }) hharmless rfl fun hlock => ⟨hlock, id⟩
    · exact h.outside (o := o) (c := none) hlocked (fun _ _ => rfl) rfl (by simp)
  | setReady =>
    change (s.setReady setup o).Ordered setup
    unfold Storage.setReady
    dsimp only
    split_ifs
    · exact h.outside (c := none) hlocked (objects_setObject_of_ne o _ s) rfl (by simp)
    · exact h.outside (o := o) (c := none) hlocked (fun _ _ => rfl) rfl (by simp)
  | removeFile op =>
    refine h.outside (c := some (.rewriteList op)) hlocked (objects_setObject_of_ne o _ s) rfl ?_
    rintro pc ⟨⟩ ⟨⟩
  | rewriteList op =>
    change (s.rewriteList setup o op).Ordered setup
    unfold Storage.rewriteList
    dsimp only
    split_ifs
    · refine h.outside (c := some .release) hlocked (fun _ _ => rfl) rfl ?_
      rintro pc ⟨⟩ ⟨⟩
    · exact h.outside (o := o) (c := none) hlocked (fun _ _ => rfl) rfl (by simp)
  | release =>
    obtain ⟨hobjects, hrunning, -, -, -, -⟩ := release_frame setup o s
    refine h.outside (o := o) (c := none) hlocked (fun o' hne => ?_) hrunning (by simp)
    change (s.release setup o).objects o' = _
    rw [hobjects, Function.update_of_ne hne]

omit [DecidableEq T] [DecidableEq O] in
theorem die (h : s.Ordered setup) (hlocked : s.Locked setup) (p : P) :
    (s.die setup p).Ordered setup := by
  intro t o pc hpc hwaits o' hthread hlock
  obtain ⟨hpc, hp, -⟩ := hlocked.survives hpc
  have hsame : (s.die setup p).objects o' = s.objects o' := by
    refine if_neg ?_
    rw [Setup.processOf, hthread]
    exact hp
  rw [hsame] at hlock ⊢
  exact h t o pc hpc hwaits o' hthread hlock

theorem step (h : s.Ordered setup) (hlocked : s.Locked setup) {action : Action P T O E}
    (hkeeps : KeepsOrder setup action s) : (s.step setup action).Ordered setup := by
  have hsteps := hlocked.steps action
  generalize s.step setup action = s' at hsteps
  cases hsteps with
  | construct o extName =>
    exact h.of_object (c := some (.lockList .construct)) hlocked (objects_setObject_of_ne o _ s) rfl
      fun _ _ _ => harmless hkeeps rfl fun hlock => by cases hlock
  | write o record hidle =>
    exact h.outside (c := none) hlocked (objects_setObject_of_ne o _ s)
      (Function.update_eq_self_iff.mpr hidle.1.symm).symm (by simp)
  | commit o =>
    refine h.outside (o := o) (c := some .closeWriter) hlocked (fun _ _ => rfl) rfl ?_
    rintro pc ⟨⟩ ⟨⟩
  | remove o =>
    exact h.of_object (o := o) (c := some (.lockList .remove)) hlocked (fun _ _ => rfl) rfl
      fun _ _ _ => hkeeps
  | destroy o _ _ hwritable hunready =>
    exact h.of_object (o := o) (c := some (.lockList .destroy)) hlocked (fun _ _ => rfl) rfl
      fun _ _ _ => hkeeps hunready hwritable
  | release o =>
    refine h.outside (o := o) (c := some .release) hlocked (fun _ _ => rfl) rfl ?_
    rintro pc ⟨⟩ ⟨⟩
  | advance o pc removed hpc => exact h.advance hlocked hpc fun heq => hkeeps (o, pc) hpc heq
  | die p => exact h.die hlocked p
  | stay => exact h

end Ordered

omit [DecidableEq P] [DecidableEq T] [DecidableEq O] in
/-- Who is blocked waits for somebody. -/
theorem Covered.waitsFor (h : s.Covered setup) (hlocked : s.Locked setup) (ht : Blocked setup s t) :
    ∃ t', WaitsFor setup s t t' := by
  cases ht with
  | list o op hpc hlock =>
    obtain ⟨t', ht'⟩ := Option.ne_none_iff_exists'.mp hlock
    exact ⟨t', .list o op hpc ht'⟩
  | extension o lst hpc hlock =>
    have hholder : ∃ o', (s.objects o').locked = true ∧
        (s.objects o').hdr.id = (s.objects o).hdr.id := by
      by_contra hnone
      refine hlock ⟨?_, ?_⟩
      · by_contra hmutex
        obtain ⟨o', ho'⟩ := Option.ne_none_iff_exists'.mp hmutex
        obtain ⟨-, hown⟩ := h.mutex _ _ o' ho'
        exact hnone ⟨o', hown⟩
      · by_contra hrecord
        rw [not_or] at hrecord
        obtain ⟨p, hp⟩ := Option.ne_none_iff_exists'.mp hrecord.1
        obtain ⟨o', -, hown⟩ := h.record p _ hp
        exact hnone ⟨o', hown⟩
    obtain ⟨o', hlock', hid⟩ := hholder
    exact ⟨setup.thread o', .extension o o' lst hpc rfl (hid ▸ hlocked.held o' hlock')⟩

/-- What the deadlock conditions keep. -/
structure Disciplined (setup : Setup P T O) (s : Storage P T O E) : Prop where
  sound : s.Sound setup
  intact : s.Intact false
  covered : s.Covered setup
  ordered : s.Ordered setup

namespace Disciplined

omit [DecidableEq P] [DecidableEq T] [DecidableEq O] in
/-- Who has the lock of an extension that another one is going to build does not wait itself. -/
theorem not_waits (h : s.Disciplined setup) {lst : List TraceExtensionHeader}
    (hpc : s.running t = some (o, .lockExtension lst))
    (hheld : FileLocks.Held setup.processOf s.locks o' (s.objects o).hdr.id) (t' : T) :
    ¬ WaitsFor setup s (setup.thread o') t' := by
  intro hwaits
  obtain ⟨-, hlock, hid⟩ := h.covered.mutex _ _ o' hheld.mutex
  have hharmless : Harmless setup (s.objects o') := by
    cases hwaits with
    | list _ _ hpc' => exact h.ordered _ _ _ hpc' trivial o' rfl hlock
    | extension _ _ _ hpc' => exact h.ordered _ _ _ hpc' trivial o' rfl hlock
  -- its entry is in the list, and ready for the process that waits
  have hentry := (h.intact.kept o' hharmless.1).entry
  have hready := h.sound.transactional.waiting t o lst hpc _ hentry hid
  rcases (h.sound.transactional.pending t o _ lst hpc rfl).found with hnone | hfound
  · exact (hnone _ hentry).1 hid
  · obtain ⟨found, hmem, hid', -, hversion⟩ := hfound
    obtain rfl := h.sound.locked.list.eq_of_id hmem hentry (hid'.trans hid.symm)
    exact hversion hready (hharmless.2 hready _).symm

omit [DecidableEq P] [DecidableEq T] [DecidableEq O] in
theorem shortWaits (h : s.Disciplined setup) : ShortWaits (WaitsFor setup s) := by
  intro t t₁ t₂ t₃ h₁ h₂ h₃
  cases h₁ with
  | extension o o' lst hpc hthread hheld => exact h.not_waits hpc hheld t₂ (hthread ▸ h₂)
  | list o op hpc hlock =>
    cases h₂ with
    | extension o o' lst hpc hthread hheld => exact h.not_waits hpc hheld t₃ (hthread ▸ h₃)
    | list o' op' hpc' hlock' =>
      obtain ⟨o'', pc, hpc'', hcritical⟩ := h.sound.transactional.holder t₁ hlock
      obtain ⟨-, rfl⟩ := Prod.mk.inj (Option.some.inj (hpc'.symm.trans hpc''))
      exact hcritical

theorem step (h : s.Disciplined setup) {action : Action P T O E}
    (hlocks : KeepsLocks setup action s) (hbuilds : KeepsBuilds false action s)
    (horder : KeepsOrder setup action s) : (s.step setup action).Disciplined setup where
  sound := h.sound.step hlocks
  intact := h.intact.step h.sound hbuilds
  covered := h.covered.step h.sound.locked action
  ordered := h.ordered.step h.sound.locked horder

end Disciplined

/-- Nobody waits in a circle, and who waits waits in the end for somebody who can go on. -/
structure DeadlockFree (setup : Setup P T O) (s : Storage P T O E) : Prop where
  acyclic : ∀ t, ¬ TransGen (WaitsFor setup s) t t
  progress : ∀ t, Blocked setup s t →
    ∃ t', TransGen (WaitsFor setup s) t t' ∧ ¬ Blocked setup s t'

omit [DecidableEq P] [DecidableEq T] [DecidableEq O] in
theorem Disciplined.deadlockFree (h : s.Disciplined setup) : s.DeadlockFree setup where
  acyclic := h.shortWaits.acyclic
  progress t ht := by
    obtain ⟨t', ht'⟩ := h.covered.waitsFor h.sound.locked ht
    obtain ⟨z, hz, hlast⟩ := h.shortWaits.exists_last ht'
    refine ⟨z, hz, fun hblocked => ?_⟩
    obtain ⟨w, hw⟩ := h.covered.waitsFor h.sound.locked hblocked
    exact hlast w hw

theorem run_deadlockFree (setup : Setup P T O) (actions : List (Action P T O E))
    (h : Meets (step setup) (fun action s => KeepsLocks setup action s ∧
      KeepsBuilds false action s ∧ KeepsOrder setup action s) actions init) :
    (run (step setup) actions init).DeadlockFree setup := by
  have hinit : (init : Storage P T O E).Disciplined setup :=
    ⟨Sound.init, Intact.init, Covered.init, fun _ _ _ hpc => by cases hpc⟩
  exact (run_invariant (P := Disciplined setup)
    (fun _ _ hkeeps hs => hs.step hkeeps.1 hkeeps.2.1 hkeeps.2.2) h hinit).deadlockFree

theorem buildsWatched_deadlockFree :
    (run (step (twoProcesses fun _ => "21.6")) buildsWatched init).DeadlockFree
      (twoProcesses fun _ => "21.6") :=
  run_deadlockFree (twoProcesses fun _ => "21.6") buildsWatched (by decide +kernel)

/-- A cancelled parse removes its extension; another process, which holds the list, waits for the
lock of the extension, and the destructor, which has that lock, waits for the list. -/
def locksCrosswise : List (Action ℕ ℕ ℕ ℕ) :=
  constructs 0 "io" 6 ++ .remove 0 :: List.replicate 3 (.advance 0 true) ++
    constructs 1 "io" 2 ++ [.destroy 0]

theorem locksCrosswise_deadlock :
    ¬ (run (step (manyProcesses fun _ => "21.6")) locksCrosswise init).DeadlockFree
      (manyProcesses fun _ => "21.6") := by
  intro h
  have hfirst : WaitsFor (manyProcesses fun _ => "21.6")
      (run (step (manyProcesses fun _ => "21.6")) locksCrosswise init) 0 1 :=
    .list 0 .destroy (by decide +kernel) (by decide +kernel)
  have hsecond : WaitsFor (manyProcesses fun _ => "21.6")
      (run (step (manyProcesses fun _ => "21.6")) locksCrosswise init) 1 0 :=
    .extension 1 0 [building "io" 1 "21.6"] (by decide +kernel) rfl
      ⟨by decide +kernel, by decide +kernel⟩
  exact h.acyclic 0 ((TransGen.single hfirst).tail hsecond)

end Storage

end Octf.Extension
