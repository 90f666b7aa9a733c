import Octf.Extension.TraceExtensionLocal
import Mathlib.Data.Fintype.Basic
import Mathlib.Data.List.Nodup
import Mathlib.Data.List.Pairwise

/-! The list of extensions names every extension and every record file once, and no two objects
write one file, unless a process closes a descriptor it has failed to lock a file with. -/
namespace Octf.Extension
open Foundation

/-- No two headers have a name or an id in common. -/
def UniqueList (lst : List TraceExtensionHeader) : Prop :=
  lst.Pairwise fun a b => a.name ≠ b.name ∧ a.id ≠ b.id

namespace UniqueList

variable {lst : List TraceExtensionHeader} {hdr a b : TraceExtensionHeader}

theorem nodup (h : UniqueList lst) : (lst.map fun e => e.name).Nodup ∧
    (lst.map fun e => e.id).Nodup :=
  ⟨List.pairwise_map.mpr (h.imp fun hab => hab.1), List.pairwise_map.mpr (h.imp fun hab => hab.2)⟩

theorem eq_of_id (h : UniqueList lst) (ha : a ∈ lst) (hb : b ∈ lst) (hid : a.id = b.id) :
    a = b := List.inj_on_of_nodup_map h.nodup.2 ha hb hid

/-- A header whose id is that of no other name can be stored. -/
theorem store (h : UniqueList lst) (hid : ∀ e ∈ lst, e.id = hdr.id → e.name = hdr.name) :
    UniqueList (Storage.store hdr lst) := by
  unfold Storage.store
  split_ifs with hfound
  · refine List.pairwise_map.mpr (List.Pairwise.imp_of_mem (fun {a b} ha hb hab => ?_) h)
    obtain ⟨hname, hid'⟩ := hab
    by_cases hna : a.name = hdr.name
    · have hnb : b.name ≠ hdr.name := fun heq => hname (hna.trans heq.symm)
      rw [if_pos hna, if_neg hnb]
      exact ⟨hnb.symm, fun heq => hnb (hid b hb heq.symm)⟩
    · rw [if_neg hna]
      by_cases hnb : b.name = hdr.name
      · rw [if_pos hnb]
        exact ⟨hna, fun heq => hna (hid a ha heq)⟩
      · rw [if_neg hnb]
        exact ⟨hname, hid'⟩
  · simp only [List.any_eq_true, decide_eq_true_eq, not_exists, not_and] at hfound
    refine List.pairwise_append.mpr ⟨h, List.pairwise_singleton _ _, fun a ha b hb => ?_⟩
    rw [List.mem_singleton] at hb
    subst hb
    exact ⟨hfound a ha, fun heq => hfound a ha (hid a ha heq)⟩

theorem markReady (h : UniqueList lst) (name : String) :
    UniqueList (Storage.markReady name lst) := by
  have hsame : ∀ lst : List TraceExtensionHeader,
      (Storage.markReady name lst).map (fun e => (e.name, e.id)) = lst.map fun e =>
        (e.name, e.id) := by
    intro lst
    induction lst with
    | nil => rfl
    | cons e lst ih =>
      unfold Storage.markReady
      split_ifs
      · rfl
      · simp [ih]
  have hpairs : ∀ lst : List TraceExtensionHeader, UniqueList lst ↔
      (lst.map fun e => (e.name, e.id)).Pairwise fun a b => a.1 ≠ b.1 ∧ a.2 ≠ b.2 := by
    intro lst
    rw [List.pairwise_map]
    rfl
  rw [hpairs, hsame, ← hpairs]
  exact h

theorem filter (h : UniqueList lst) (p : TraceExtensionHeader → Bool) :
    UniqueList (lst.filter p) := h.sublist List.filter_sublist

end UniqueList

theorem le_maxId {lst : List TraceExtensionHeader} {e : TraceExtensionHeader} (h : e ∈ lst) :
    e.id ≤ Storage.maxId lst := by
  have hfold : ∀ (lst : List TraceExtensionHeader) (start : ℕ),
      start ≤ lst.foldl (fun max extHdr => Nat.max max extHdr.id) start ∧
        ∀ e ∈ lst, e.id ≤ lst.foldl (fun max extHdr => Nat.max max extHdr.id) start := by
    intro lst
    induction lst with
    | nil => exact fun start => ⟨le_rfl, by simp⟩
    | cons first lst ih =>
      intro start
      obtain ⟨hstart, hrest⟩ := ih (Nat.max start first.id)
      refine ⟨(Nat.le_max_left _ _).trans hstart, fun e he => ?_⟩
      rcases List.mem_cons.mp he with rfl | he
      · exact (Nat.le_max_right _ _).trans hstart
      · exact hrest e he
  exact (hfold lst 0).2 e h

/-- The list that a constructor is going to write. -/
def Pc.list? : Pc → Option (List TraceExtensionHeader)
  | .lockExtension lst | .clear lst | .writeList lst => some lst
  | _ => none

/-- A constructor that has not locked its extension. -/
def Pc.Before : Pc → Prop
  | .lockList .construct | .readList | .lockExtension _ => True
  | _ => False

/-- A constructor that has locked its extension and has no writer yet. -/
def Pc.Within : Pc → Prop
  | .clear _ | .writeList _ | .openWriter => True
  | _ => False

namespace Storage

variable {P T O E : Type} [DecidableEq P] [DecidableEq T] [DecidableEq O]
  {setup : Setup P T O} {s s' : Storage P T O E} {o o' : O}

/-- What C++ locks of files do not forgive: a descriptor that could not be locked is closed while
its process has locked the file with another one. And the ids do not run out. -/
def KeepsLocks (setup : Setup P T O) (action : Action P T O E) (s : Storage P T O E) : Prop :=
  match action with
  | .advance t _ =>
    (∀ o, s.running t = some (o, .release) → (s.objects o).locked = false →
      (s.objects o).lockFd = true → ∀ o', setup.processOf o' = setup.processOf o →
        (s.objects o').locked = true → (s.objects o').hdr.id ≠ (s.objects o).hdr.id) ∧
    (∀ o, s.running t = some (o, .readList) → maxId s.list + 1 < 2 ^ 64)
  | _ => True

instance [Fintype O] (setup : Setup P T O) (action : Action P T O E) (s : Storage P T O E) :
    Decidable (KeepsLocks setup action s) :=
  match action with
  | .advance _ _ => inferInstanceAs (Decidable (_ ∧ _))
  | .construct _ _ | .write _ _ | .commit _ | .remove _ | .destroy _ | .die _ => .isTrue trivial

/-- Objects that write have locked their files, and all lists are unique. -/
structure Locked (setup : Setup P T O) (s : Storage P T O E) : Prop where
  thread : ∀ t o pc, s.running t = some (o, pc) → setup.thread o = t
  begun : ∀ t o pc, s.running t = some (o, pc) → (s.objects o).exists' = true
  absent : ∀ o, (s.objects o).exists' = false → (s.objects o).locked = false
  held : ∀ o, (s.objects o).locked = true →
    FileLocks.Held setup.processOf s.locks o (s.objects o).hdr.id
  before : ∀ t o pc, s.running t = some (o, pc) → pc.Before → (s.objects o).locked = false
  within : ∀ t o pc, s.running t = some (o, pc) → pc.Within → (s.objects o).locked = true
  writable : ∀ o, (s.objects o).writable = true → (s.objects o).locked = true
  list : UniqueList s.list
  lists : ∀ t o pc lst, s.running t = some (o, pc) → pc.list? = some lst → UniqueList lst

omit [DecidableEq P] [DecidableEq T] [DecidableEq O] in
theorem Locked.init : (init : Storage P T O E).Locked setup where
  thread _ _ _ h := by cases h
  begun _ _ _ h := by cases h
  absent _ _ := rfl
  held _ h := by cases h
  before _ _ _ h := by cases h
  within _ _ _ h := by cases h
  writable _ h := by cases h
  list := List.Pairwise.nil
  lists _ _ _ _ h := by cases h

omit [DecidableEq P] [DecidableEq T] [DecidableEq O] in
theorem Locked.present (h : s.Locked setup) (ho : (s.objects o).locked = true) :
    (s.objects o).exists' = true := by
  by_contra hnone
  rw [h.absent o (by simpa using hnone)] at ho
  cases ho

omit [DecidableEq P] [DecidableEq T] [DecidableEq O] in
theorem Locked.unwritten (h : s.Locked setup) (ho : (s.objects o).locked = false) :
    (s.objects o).writable = false := by
  by_contra hwrite
  rw [h.writable o (by simpa using hwrite)] at ho
  cases ho

omit [DecidableEq P] [DecidableEq T] [DecidableEq O] in
/-- Two objects that have locked the same file are one. -/
theorem Locked.unique (h : s.Locked setup) (ho : (s.objects o).locked = true)
    (ho' : (s.objects o').locked = true) (hid : (s.objects o).hdr.id = (s.objects o').hdr.id) :
    o = o' := (h.held o ho).unique (hid ▸ h.held o' ho')

omit [DecidableEq P] [DecidableEq O] in
/-- The calls after a step of one object: its own, and those of the other threads. -/
theorem Locked.calls (h : s.Locked setup) {c : Option Pc}
    (hrunning : s'.running =
      Function.update s.running (setup.thread o) (c.map fun pc => (o, pc))) {t : T} {pc : Pc}
    (hpc : s'.running t = some (o', pc)) : (o' = o ∧ t = setup.thread o ∧ pc ∈ c) ∨
      (s.running t = some (o', pc) ∧ t ≠ setup.thread o ∧ o' ≠ o) := by
  rw [hrunning] at hpc
  by_cases ht : t = setup.thread o
  · subst ht
    rw [Function.update_self] at hpc
    obtain ⟨pc', hpc', heq⟩ := Option.map_eq_some_iff.mp hpc
    obtain ⟨rfl, rfl⟩ := Prod.mk.inj heq
    exact Or.inl ⟨rfl, rfl, hpc'⟩
  · rw [Function.update_of_ne ht] at hpc
    refine Or.inr ⟨hpc, ht, ?_⟩
    rintro rfl
    exact ht (h.thread t o' pc hpc).symm

omit [DecidableEq T] [DecidableEq O] in
/-- The calls of the processes that stay alive, and their objects. -/
theorem Locked.survives (h : s.Locked setup) {p : P} {t : T} {pc : Pc}
    (hpc : (s.die setup p).running t = some (o, pc)) : s.running t = some (o, pc) ∧
      setup.process t ≠ p ∧ (s.die setup p).objects o = s.objects o := by
  simp only [Storage.die] at hpc ⊢
  split_ifs at hpc with hp
  have hthread : setup.processOf o ≠ p := by
    rw [Setup.processOf, h.thread t o pc hpc]
    exact hp
  exact ⟨hpc, hp, if_neg hthread⟩

omit [DecidableEq P] in
/-- A step of the call of one object: everything about the others stays. -/
theorem Locked.of_object (h : s.Locked setup) {x : TraceExtensionLocal E} {c : Option Pc}
    (hobjects : s'.objects = Function.update s.objects o x)
    (hrunning : s'.running =
      Function.update s.running (setup.thread o) (c.map fun pc => (o, pc)))
    (hbegun : ∀ pc ∈ c, x.exists' = true) (habsent : x.exists' = false → x.locked = false)
    (hothers : ∀ o' ≠ o, (s.objects o').locked = true →
      FileLocks.Held setup.processOf s'.locks o' (s.objects o').hdr.id)
    (hheld : x.locked = true → FileLocks.Held setup.processOf s'.locks o x.hdr.id)
    (hbefore : ∀ pc ∈ c, pc.Before → x.locked = false)
    (hwithin : ∀ pc ∈ c, pc.Within → x.locked = true)
    (hwritable : x.writable = true → x.locked = true)
    (hlist : UniqueList s'.list) (hlists : ∀ pc ∈ c, ∀ lst ∈ pc.list?, UniqueList lst) :
    s'.Locked setup := by
  have hself : s'.objects o = x := by rw [hobjects, Function.update_self]
  have hother : ∀ o' ≠ o, s'.objects o' = s.objects o' := fun o' hne => by
    rw [hobjects, Function.update_of_ne hne]
  refine ⟨?_, ?_, ?_, ?_, ?_, ?_, ?_, hlist, ?_⟩
  · intro t o' pc hpc
    rcases h.calls hrunning hpc with ⟨rfl, rfl, -⟩ | ⟨hpc, -, -⟩
    · rfl
    · exact h.thread t o' pc hpc
  · intro t o' pc hpc
    rcases h.calls hrunning hpc with ⟨rfl, -, hmem⟩ | ⟨hpc, -, ho⟩
    · rw [hself]
      exact hbegun pc hmem
    · rw [hother o' ho]
      exact h.begun t o' pc hpc
  · intro o' hnone
    by_cases ho : o' = o
    · subst ho
      rw [hself] at hnone ⊢
      exact habsent hnone
    · rw [hother o' ho] at hnone ⊢
      exact h.absent o' hnone
  · intro o' hlocked
    by_cases ho : o' = o
    · subst ho
      rw [hself] at hlocked ⊢
      exact hheld hlocked
    · rw [hother o' ho] at hlocked ⊢
      exact hothers o' ho hlocked
  · intro t o' pc hpc hpc'
    rcases h.calls hrunning hpc with ⟨rfl, -, hmem⟩ | ⟨hpc, -, ho⟩
    · rw [hself]
      exact hbefore pc hmem hpc'
    · rw [hother o' ho]
      exact h.before t o' pc hpc hpc'
  · intro t o' pc hpc hpc'
    rcases h.calls hrunning hpc with ⟨rfl, -, hmem⟩ | ⟨hpc, -, ho⟩
    · rw [hself]
      exact hwithin pc hmem hpc'
    · rw [hother o' ho]
      exact h.within t o' pc hpc hpc'
  · intro o' hwrites
    by_cases ho : o' = o
    · subst ho
      rw [hself] at hwrites ⊢
      exact hwritable hwrites
    · rw [hother o' ho] at hwrites ⊢
      exact h.writable o' hwrites
  · intro t o' pc lst hpc hlst
    rcases h.calls hrunning hpc with ⟨-, -, hmem⟩ | ⟨hpc, -, -⟩
    · exact hlists pc hmem lst hlst
    · exact h.lists t o' pc lst hpc hlst

omit [DecidableEq P] in
/-- A step that changes neither the objects nor the locks nor the list. -/
theorem Locked.move (h : s.Locked setup) {c : Option Pc} (hobjects : s'.objects = s.objects)
    (hrunning : s'.running =
      Function.update s.running (setup.thread o) (c.map fun pc => (o, pc)))
    (hlocks : s'.locks = s.locks) (hlist : UniqueList s'.list)
    (hbegun : ∀ pc ∈ c, (s.objects o).exists' = true)
    (hbefore : ∀ pc ∈ c, pc.Before → (s.objects o).locked = false)
    (hwithin : ∀ pc ∈ c, pc.Within → (s.objects o).locked = true)
    (hlists : ∀ pc ∈ c, ∀ lst ∈ pc.list?, UniqueList lst) : s'.Locked setup :=
  h.of_object (x := s.objects o) (by rw [hobjects, Function.update_eq_self]) hrunning hbegun
    (h.absent o) (fun o' _ hlocked => hlocks ▸ h.held o' hlocked)
    (fun hlocked => hlocks ▸ h.held o hlocked)
    hbefore hwithin (h.writable o) hlist hlists

omit [DecidableEq P] in
/-- A call is left, with what it has changed in its object. -/
theorem Locked.leaves (h : s.Locked setup) {x : TraceExtensionLocal E}
    (hobjects : s'.objects = Function.update s.objects o x)
    (hrunning : s'.running = Function.update s.running (setup.thread o) none)
    (hlocks : s'.locks = s.locks) (hlist : UniqueList s'.list)
    (habsent : x.exists' = false → x.locked = false)
    (hlocked : x.locked = true → (s.objects o).locked = true ∧ x.hdr.id = (s.objects o).hdr.id)
    (hwritable : x.writable = true → x.locked = true) : s'.Locked setup :=
  h.of_object (c := none) hobjects hrunning (by simp) habsent
    (fun o' _ hlock => hlocks ▸ h.held o' hlock)
    (fun hlock => by
      obtain ⟨hbefore, hid⟩ := hlocked hlock
      rw [hlocks, hid]
      exact h.held o hbefore)
    (by simp) (by simp) hwritable hlist (by simp)

omit [DecidableEq P] [DecidableEq T] [DecidableEq O] in
theorem store_fresh (hlist : UniqueList s.list) (hids : maxId s.list + 1 < 2 ^ 64)
    {extName version : String} {hdr : TraceExtensionHeader}
    (hhdr : hdr = building extName ((maxId s.list + 1) % 2 ^ 64) version) :
    (∀ e ∈ s.list, e.id ≠ hdr.id) ∧ UniqueList (store hdr s.list) := by
  have hfresh : ∀ e ∈ s.list, e.id ≠ hdr.id := by
    intro e he heq
    have hid : hdr.id = maxId s.list + 1 := by
      rw [hhdr, building, Nat.mod_eq_of_lt hids]
    have hle := le_maxId he
    omega
  exact ⟨hfresh, hlist.store fun e he heq => absurd heq (hfresh e he)⟩

omit [DecidableEq P] [DecidableEq T] [DecidableEq O] in
theorem store_found (hlist : UniqueList s.list) {found hdr : TraceExtensionHeader}
    {version : String} (hfound : found ∈ s.list)
    (hhdr : hdr = building found.name found.id version) : UniqueList (store hdr s.list) := by
  refine hlist.store fun e he heq => ?_
  rw [hhdr] at heq ⊢
  rw [hlist.eq_of_id he hfound heq]
  rfl

theorem Locked.readList (h : s.Locked setup)
    (hpc : s.running (setup.thread o) = some (o, .readList))
    (hids : maxId s.list + 1 < 2 ^ 64) : (s.readList setup o).Locked setup := by
  have hunlocked := h.before _ o _ hpc trivial
  have hunwritten := h.unwritten hunlocked
  have hbegun := h.begun _ o _ hpc
  have hothers : ∀ o' ≠ o, (s.objects o').locked = true →
      FileLocks.Held setup.processOf s.locks o' (s.objects o').hdr.id := fun o' _ => h.held o'
  have hspec := readList_spec setup s o
  generalize s.readList setup o = s' at hspec
  cases hspec with
  | duplicate =>
    exact h.leaves rfl rfl rfl h.list (fun _ => rfl) (fun hlock => by cases hlock)
      (fun hwrite => by cases hwrite)
  | new hname hdr hhdr =>
    obtain ⟨-, hunique⟩ := store_fresh h.list hids hhdr
    refine h.of_object (c := some (.lockExtension _)) rfl rfl (fun _ _ => hbegun)
      (h.absent o) hothers
      (fun hlock => ?_) ?_ ?_ (fun hwrite => ?_) h.list ?_
    · exact absurd hlock (by simp [hunlocked])
    · rintro pc ⟨⟩ -
      exact hunlocked
    · rintro pc ⟨⟩ ⟨⟩
    · exact absurd hwrite (by simp [hunwritten])
    · rintro pc ⟨⟩ lst ⟨⟩
      exact hunique
  | stale found hdr hfound hname hready hversion hhdr =>
    rw [← hname] at hhdr
    refine h.of_object (c := some (.lockExtension _)) rfl rfl (fun _ _ => hbegun)
      (h.absent o) hothers
      (fun hlock => ?_) ?_ ?_ (fun hwrite => ?_) h.list ?_
    · exact absurd hlock (by simp [hunlocked])
    · rintro pc ⟨⟩ -
      exact hunlocked
    · rintro pc ⟨⟩ ⟨⟩
    · exact absurd hwrite (by simp [hunwritten])
    · rintro pc ⟨⟩ lst ⟨⟩
      exact store_found h.list hfound hhdr
  | ready found hfound hname hready =>
    exact h.leaves rfl rfl rfl h.list (h.absent o) (fun hlock => absurd hlock (by simp [hunlocked]))
      (fun hwrite => absurd hwrite (by simp [hunwritten]))
  | busy found lockFd hfound hname hready =>
    exact h.leaves rfl rfl rfl h.list (h.absent o) (fun hlock => absurd hlock (by simp [hunlocked]))
      (fun hwrite => absurd hwrite (by simp [hunwritten]))
  | abandoned found hdr hfound hname hready hfree hhdr =>
    rw [← hname] at hhdr
    have hid : hdr.id = found.id := by rw [hhdr]; rfl
    refine h.of_object (c := some (.clear _)) rfl rfl (fun _ _ => hbegun)
      (fun hnone => absurd (hbegun.symm.trans hnone) (by simp))
      (fun o' _ hlock => (h.held o' hlock).acquire hfree) (fun _ => ?_) ?_ ?_
      (fun _ => rfl) h.list ?_
    · rw [hid]
      exact FileLocks.Held.acquired
    · rintro pc ⟨⟩ ⟨⟩
    · rintro pc ⟨⟩ -
      rfl
    · rintro pc ⟨⟩ lst ⟨⟩
      exact store_found h.list hfound hhdr

theorem Locked.lockExtension (h : s.Locked setup) {lst : List TraceExtensionHeader}
    (hpc : s.running (setup.thread o) = some (o, .lockExtension lst)) :
    (s.lockExtension setup o lst).Locked setup := by
  unfold Storage.lockExtension
  dsimp only
  split_ifs with hfree
  · have hbegun := h.begun _ o _ hpc
    refine h.of_object (c := some (.clear lst)) rfl rfl (fun _ _ => hbegun)
      (fun hnone => absurd (hbegun.symm.trans hnone) (by simp))
      (fun o' _ hlock => (h.held o' hlock).acquire hfree) (fun _ => FileLocks.Held.acquired) ?_ ?_
      (fun _ => rfl) h.list ?_
    · rintro pc ⟨⟩ ⟨⟩
    · rintro pc ⟨⟩ -
      rfl
    · rintro pc ⟨⟩ lst' ⟨⟩
      exact h.lists _ o _ lst hpc rfl
  · exact h

omit [DecidableEq P] [DecidableEq T] [DecidableEq O] in
/-- Opening a record file leaves the locks, the list and the objects. -/
theorem openFile_frame (id : ℕ) (s : Storage P T O E) : (s.openFile id).2.objects = s.objects ∧
    (s.openFile id).2.running = s.running ∧ (s.openFile id).2.locks = s.locks ∧
    (s.openFile id).2.list = s.list ∧ (s.openFile id).2.listLock = s.listLock := by
  unfold openFile
  cases s.directory id <;> exact ⟨rfl, rfl, rfl, rfl, rfl⟩

theorem release_frame (setup : Setup P T O) (o : O) (s : Storage P T O E) :
    (s.release setup o).objects = Function.update s.objects o (.absent E) ∧
      (s.release setup o).running = Function.update s.running (setup.thread o) none ∧
      (s.release setup o).list = s.list ∧ (s.release setup o).listLock = s.listLock ∧
      (s.release setup o).directory = s.directory ∧
        (s.release setup o).nextInode = s.nextInode := by
  unfold Storage.release
  dsimp only
  cases (s.objects o).isOpen
  · exact ⟨rfl, rfl, rfl, rfl, rfl, rfl⟩
  · refine ⟨?_, rfl, rfl, rfl, rfl, rfl⟩
    simp [leave, setObject, closeFile]

theorem release_locks (setup : Setup P T O) (o : O) (s : Storage P T O E) :
    (s.release setup o).locks =
      if (s.objects o).locked then s.locks.release (setup.processOf o) (s.objects o).hdr.id
      else if (s.objects o).lockFd then s.locks.close (setup.processOf o) (s.objects o).hdr.id
      else s.locks := by
  unfold Storage.release
  dsimp only
  cases (s.objects o).isOpen <;> rfl

theorem Locked.release (h : s.Locked setup)
    (hkeeps : (s.objects o).locked = false → (s.objects o).lockFd = true →
      ∀ o', setup.processOf o' = setup.processOf o → (s.objects o').locked = true →
        (s.objects o').hdr.id ≠ (s.objects o).hdr.id) : (s.release setup o).Locked setup := by
  obtain ⟨hobjects, hrunning, hlist, -, -, -⟩ := release_frame setup o s
  refine h.of_object (c := none) hobjects hrunning (by simp) (fun _ => rfl) (fun o' hne hlock => ?_)
    (fun hlock => by cases hlock) (by simp) (by simp) (fun hwrite => by cases hwrite)
    (hlist ▸ h.list) (by simp)
  rw [release_locks]
  split_ifs with hlocked hfd
  · exact (h.held o' hlock).release (h.held o hlocked) hne
  · refine (h.held o' hlock).close fun hid hprocess => ?_
    exact hkeeps (by simpa using hlocked) hfd o' hprocess hlock hid
  · exact h.held o' hlock

omit [DecidableEq P] in
/-- A call goes on to a step behind the locks, with what it has changed in its object. -/
theorem Locked.goes (h : s.Locked setup) {x : TraceExtensionLocal E} {c : Pc}
    (hobjects : s'.objects = Function.update s.objects o x)
    (hrunning : s'.running = Function.update s.running (setup.thread o) (some (o, c)))
    (hlocks : s'.locks = s.locks) (hlist : UniqueList s'.list) (hbegun : x.exists' = true)
    (hlocked : x.locked = (s.objects o).locked) (hid : x.hdr.id = (s.objects o).hdr.id)
    (hwritable : x.writable = (s.objects o).writable) (hbefore : ¬ c.Before)
    (hwithin : ¬ c.Within) (hlst : c.list? = none) : s'.Locked setup := by
  refine h.of_object (c := some c) hobjects hrunning (fun _ _ => hbegun)
    (fun hnone => by rw [hbegun] at hnone; cases hnone)
    (fun o' _ hlock => hlocks ▸ h.held o' hlock) (fun hlock => ?_) ?_ ?_ (fun hwrite => ?_) hlist ?_
  · rw [hlocks, hid]
    exact h.held o (hlocked ▸ hlock)
  · rintro pc ⟨⟩ hpc
    exact absurd hpc hbefore
  · rintro pc ⟨⟩ hpc
    exact absurd hpc hwithin
  · rw [hlocked]
    exact h.writable o (hwritable ▸ hwrite)
  · rintro pc ⟨⟩ lst hmem
    rw [hlst] at hmem
    cases hmem

omit [DecidableEq P] in
theorem Locked.clear (h : s.Locked setup) {lst : List TraceExtensionHeader}
    (hpc : s.running (setup.thread o) = some (o, .clear lst)) :
    (s.clear setup o lst).Locked setup := by
  obtain ⟨hobjects, hrunning, hlocks, hlist, -⟩ := openFile_frame (s.objects o).hdr.id s
  refine h.move (o := o) (c := some (.writeList lst)) hobjects ?_ hlocks ?_
    (fun _ _ => h.begun _ o _ hpc) ?_ ?_ ?_
  · exact congrArg (Function.update · _ _) hrunning
  · exact hlist ▸ h.list
  · rintro pc ⟨⟩ ⟨⟩
  · rintro pc ⟨⟩ -
    exact h.within _ o _ hpc trivial
  · rintro pc ⟨⟩ lst' ⟨⟩
    exact h.lists _ o _ lst hpc rfl

omit [DecidableEq P] in
theorem Locked.openWriter (h : s.Locked setup)
    (hpc : s.running (setup.thread o) = some (o, .openWriter)) :
    (s.openWriter setup o).Locked setup := by
  obtain ⟨hobjects, hrunning, hlocks, hlist, -⟩ := openFile_frame (s.objects o).hdr.id s
  have hlocked := h.within _ o _ hpc trivial
  refine h.leaves (x := { s.objects o with
    writable := true, isOpen := true, inode := (s.openFile (s.objects o).hdr.id).1, written := [],
    withdrawn := false }) ?_ ?_ hlocks ?_ (h.absent o) (fun _ => ⟨hlocked, rfl⟩) (fun _ => hlocked)
  · change Function.update _ o _ = _
    rw [hobjects]
  · exact congrArg (Function.update · _ _) hrunning
  · exact hlist ▸ h.list

omit [DecidableEq P] in
theorem Locked.setReady (h : s.Locked setup) : (s.setReady setup o).Locked setup := by
  unfold Storage.setReady
  dsimp only
  split_ifs
  · exact h.leaves rfl rfl rfl (h.list.markReady _) (h.absent o) (fun hlock => ⟨hlock, rfl⟩)
      (h.writable o)
  · exact h.move (o := o) (c := none) rfl rfl rfl h.list (by simp) (by simp) (by simp) (by simp)

omit [DecidableEq P] in
theorem Locked.rewriteList (h : s.Locked setup) (op : ListOperation)
    (hpc : s.running (setup.thread o) = some (o, .rewriteList op)) :
    (s.rewriteList setup o op).Locked setup := by
  unfold Storage.rewriteList
  dsimp only
  split_ifs
  · exact h.goes (x := s.objects o) (c := .release) (Function.update_eq_self _ _).symm rfl rfl
      (h.list.filter _) (h.begun _ o _ hpc) rfl rfl rfl id id rfl
  · exact h.move (o := o) (c := none) rfl rfl rfl (h.list.filter _) (by simp) (by simp) (by simp)
      (by simp)

theorem Locked.advance (h : s.Locked setup) {pc : Pc} {removed : Bool}
    (hpc : s.running (setup.thread o) = some (o, pc))
    (hkeeps : KeepsLocks setup (.advance (setup.thread o) removed : Action P T O E) s) :
    (s.advance setup o pc removed).Locked setup := by
  cases pc with
  | lockList op =>
    unfold Storage.advance
    dsimp only
    split
    · exact h
    · cases op with
      | construct =>
        refine h.move (o := o) (c := some .readList) rfl rfl rfl h.list
          (fun _ _ => h.begun _ o _ hpc)
          ?_ ?_ ?_
        · rintro pc ⟨⟩ -
          exact h.before _ o _ hpc trivial
        · rintro pc ⟨⟩ ⟨⟩
        · rintro pc ⟨⟩ lst ⟨⟩
      | commit | remove | destroy =>
        refine h.goes (x := s.objects o) (Function.update_eq_self _ _).symm rfl rfl h.list
          (h.begun _ o _ hpc) rfl rfl rfl id id rfl
  | readList => exact h.readList hpc (hkeeps.2 o hpc)
  | lockExtension lst => exact h.lockExtension hpc
  | clear lst => exact h.clear hpc
  | writeList lst =>
    refine h.move (o := o) (c := some .openWriter) rfl rfl rfl (h.lists _ o _ lst hpc rfl)
      (fun _ _ => h.begun _ o _ hpc) ?_ ?_ ?_
    · rintro pc ⟨⟩ ⟨⟩
    · rintro pc ⟨⟩ -
      exact h.within _ o _ hpc trivial
    · rintro pc ⟨⟩ lst' ⟨⟩
  | openWriter => exact h.openWriter hpc
  | closeWriter =>
    change (s.closeWriter setup o).Locked setup
    unfold Storage.closeWriter
    dsimp only
    split_ifs
    · exact h.goes (x := { s.objects o with isOpen := false }) (c := .lockList .commit) rfl rfl rfl
        h.list (h.begun _ o _ hpc) rfl rfl rfl id id rfl
    · exact h.move (o := o) (c := none) rfl rfl rfl h.list (by simp) (by simp) (by simp) (by simp)
  | setReady => exact h.setReady
  | removeFile op =>
    exact h.goes (x := { s.objects o with withdrawn := true }) (c := .rewriteList op) rfl rfl rfl
      h.list (h.begun _ o _ hpc) rfl rfl rfl id id rfl
  | rewriteList op => exact h.rewriteList op hpc
  | release => exact h.release (hkeeps.1 o hpc)

omit [DecidableEq T] [DecidableEq O] in
theorem Locked.die (h : s.Locked setup) (p : P) : (s.die setup p).Locked setup := by
  have hobject : ∀ o, (s.die setup p).objects o = s.objects o ∧ setup.processOf o ≠ p ∨
      (s.die setup p).objects o = .absent E := by
    intro o
    by_cases hp : setup.processOf o = p
    · exact Or.inr (if_pos hp)
    · exact Or.inl ⟨if_neg hp, hp⟩
  refine ⟨fun t o pc hpc => h.thread t o pc (h.survives hpc).1, fun t o pc hpc => ?_,
    fun o hnone => ?_, fun o hlock => ?_,
    fun t o pc hpc => ?_, fun t o pc hpc => ?_, fun o hwrite => ?_, h.list,
    fun t o pc lst hpc => h.lists t o pc lst (h.survives hpc).1⟩
  · obtain ⟨hpc, -, hsame⟩ := h.survives hpc
    rw [hsame]
    exact h.begun t o pc hpc
  · rcases hobject o with ⟨heq, -⟩ | heq
    · rw [heq] at hnone ⊢
      exact h.absent o hnone
    · rw [heq]
      rfl
  · rcases hobject o with ⟨heq, hp⟩ | heq
    · rw [heq] at hlock ⊢
      exact (h.held o hlock).die hp
    · rw [heq] at hlock
      cases hlock
  · obtain ⟨hpc, -, hsame⟩ := h.survives hpc
    rw [hsame]
    exact h.before t o pc hpc
  · obtain ⟨hpc, -, hsame⟩ := h.survives hpc
    rw [hsame]
    exact h.within t o pc hpc
  · rcases hobject o with ⟨heq, -⟩ | heq
    · rw [heq] at hwrite ⊢
      exact h.writable o hwrite
    · rw [heq] at hwrite
      cases hwrite

/-- What a step can do: an idle object begins a call, a call goes on, a process dies, or nothing
happens. -/
inductive Steps (setup : Setup P T O) (s : Storage P T O E) :
    Action P T O E → Storage P T O E → Prop
  | construct (o : O) (extName : String) (hidle : s.Idle setup o)
    (habsent : (s.objects o).exists' = false) : Steps setup s (.construct o extName)
      ((s.setObject o
        { TraceExtensionLocal.absent E with exists' := true, extName := extName }).goTo
        (setup.thread o) o (.lockList .construct))
  | write (o : O) (record : E) (hidle : s.Idle setup o) (hopen : (s.objects o).isOpen = true) :
    Steps setup s (.write o record) (s.write o record)
  | commit (o : O) (hidle : s.Idle setup o) (hwritable : (s.objects o).writable = true) :
    Steps setup s (.commit o) (s.goTo (setup.thread o) o .closeWriter)
  | remove (o : O) (hidle : s.Idle setup o) (hexists : (s.objects o).exists' = true) :
    Steps setup s (.remove o) (s.goTo (setup.thread o) o (.lockList .remove))
  | destroy (o : O) (hidle : s.Idle setup o) (hexists : (s.objects o).exists' = true)
    (hwritable : (s.objects o).writable = true)
    (hunready : (s.objects o).hdr.state = .INITIALIZING ∨ (s.objects o).hdr.state = .ERROR) :
    Steps setup s (.destroy o) (s.goTo (setup.thread o) o (.lockList .destroy))
  | release (o : O) (hidle : s.Idle setup o) (hexists : (s.objects o).exists' = true) :
    Steps setup s (.destroy o) (s.goTo (setup.thread o) o .release)
  | advance (o : O) (pc : Pc) (removed : Bool) (hpc : s.running (setup.thread o) = some (o, pc)) :
    Steps setup s (.advance (setup.thread o) removed) (s.advance setup o pc removed)
  | die (p : P) : Steps setup s (.die p) (s.die setup p)
  | stay (action : Action P T O E) : Steps setup s action s

theorem Locked.steps (h : s.Locked setup) (action : Action P T O E) :
    Steps setup s action (s.step setup action) := by
  cases action with
  | construct o extName =>
    unfold Storage.step
    dsimp only
    split_ifs with hidle
    · exact .construct o extName hidle.1 hidle.2
    · exact .stay _
  | write o record =>
    unfold Storage.step
    dsimp only
    split_ifs with hidle
    · exact .write o record hidle.1 hidle.2
    · exact .stay _
  | commit o =>
    unfold Storage.step
    dsimp only
    split_ifs with hidle
    · exact .commit o hidle.1 hidle.2
    · exact .stay _
  | remove o =>
    unfold Storage.step
    dsimp only
    split_ifs with hidle
    · exact .remove o hidle.1 hidle.2
    · exact .stay _
  | destroy o =>
    unfold Storage.step
    dsimp only
    split_ifs with hidle hunready
    · exact .destroy o hidle.1 hidle.2 hunready.1 hunready.2
    · exact .release o hidle.1 hidle.2
    · exact .stay _
  | advance t removed =>
    unfold Storage.step
    dsimp only
    split
    · rename_i o pc hpc
      obtain rfl := h.thread t o pc hpc
      exact .advance o pc removed hpc
    · exact .stay _
  | die p => exact .die p

theorem Locked.step (h : s.Locked setup) {action : Action P T O E}
    (hkeeps : KeepsLocks setup action s) : (s.step setup action).Locked setup := by
  have hsteps := h.steps action
  generalize s.step setup action = s' at hsteps
  cases hsteps with
  | construct o extName =>
    refine h.of_object (c := some (.lockList .construct)) rfl rfl (fun _ _ => rfl)
      (fun hnone => by cases hnone) (fun o' _ => h.held o')
      (fun hlock => by cases hlock) (fun _ _ _ => rfl) ?_ (fun hwrite => by cases hwrite) h.list ?_
    · rintro pc ⟨⟩ ⟨⟩
    · rintro pc ⟨⟩ lst ⟨⟩
  | write o record hidle =>
    refine h.leaves (o := o) rfl ?_ rfl h.list (h.absent o) (fun hlock => ⟨hlock, rfl⟩)
      (h.writable o)
    exact (Function.update_eq_self_iff.mpr hidle.1.symm).symm
  | commit o _ hwritable =>
    exact h.goes (x := s.objects o) (Function.update_eq_self _ _).symm rfl rfl h.list
      (h.present (h.writable o hwritable)) rfl rfl rfl id id rfl
  | remove o _ hexists | destroy o _ hexists | release o _ hexists =>
    exact h.goes (x := s.objects o) (Function.update_eq_self _ _).symm rfl rfl h.list hexists
      rfl rfl rfl id id rfl
  | advance o pc removed hpc => exact h.advance hpc hkeeps
  | die p => exact h.die p
  | stay => exact h

end Storage

end Octf.Extension
