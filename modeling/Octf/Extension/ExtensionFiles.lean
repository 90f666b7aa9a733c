import Octf.Extension.ListLock

/-! The record files: what a writer's file holds is what it has written, whatever the others do,
and two writers never have one file. -/
namespace Octf.Extension
open Foundation

/-- A constructor that has cleared its file. -/
def Pc.Cleared : Pc → Prop
  | .writeList _ | .openWriter => True
  | _ => False

theorem Pc.Cleared.critical {pc : Pc} (h : pc.Cleared) : pc.Critical := by
  cases pc with
  | writeList _ | openWriter => trivial
  | _ => cases h

theorem Pc.Cleared.within {pc : Pc} (h : pc.Cleared) : pc.Within := by
  cases pc with
  | writeList _ | openWriter => trivial
  | _ => cases h

namespace Storage

variable {P T O E : Type} [DecidableEq P] [DecidableEq T] [DecidableEq O]
  {setup : Setup P T O} {s s' : Storage P T O E} {o o' : O}

/-- The files of the directory are different, and so are those of the writers. -/
structure Filed (s : Storage P T O E) : Prop where
  injective : ∀ id id' i, s.directory id = some i → s.directory id' = some i → id = id'
  bound : ∀ id i, s.directory id = some i → i < s.nextInode
  fresh : ∀ o, (s.objects o).writable = true → (s.objects o).inode < s.nextInode
  own : ∀ o, (s.objects o).writable = true → ∀ id, s.directory id = some (s.objects o).inode →
    id = (s.objects o).hdr.id
  file : ∀ o, (s.objects o).writable = true → ∀ i, s.directory (s.objects o).hdr.id = some i →
    i = (s.objects o).inode
  contents : ∀ o, (s.objects o).writable = true →
    s.inodes (s.objects o).inode = ⟨(s.objects o).written, !(s.objects o).isOpen⟩
  separate : ∀ o o', (s.objects o).writable = true → (s.objects o').writable = true →
    (s.objects o).inode = (s.objects o').inode → o = o'
  opened : ∀ o, (s.objects o).isOpen = true → (s.objects o).writable = true
  unopened : ∀ t o pc, s.running t = some (o, pc) → pc.Within → (s.objects o).writable = false
  cleared : ∀ t o pc, s.running t = some (o, pc) → pc.Cleared →
    ∃ i, s.directory (s.objects o).hdr.id = some i ∧ s.inodes i = ⟨[], false⟩

/-- The members of an object are destroyed: its file is closed if it is still open. -/
theorem release_files (setup : Setup P T O) (o : O) (s : Storage P T O E) :
    (s.release setup o).committed = s.committed ∧
      ∀ i, ((s.objects o).isOpen = true → i ≠ (s.objects o).inode) →
        (s.release setup o).inodes i = s.inodes i := by
  unfold Storage.release
  dsimp only
  by_cases hopen : (s.objects o).isOpen = true
  · rw [if_pos hopen]
    exact ⟨rfl, fun i hi => Function.update_of_ne (hi hopen) _ _⟩
  · rw [if_neg hopen]
    exact ⟨rfl, fun _ _ => rfl⟩

namespace Filed

omit [DecidableEq P] [DecidableEq T] [DecidableEq O] in
theorem init : (init : Storage P T O E).Filed where
  injective _ _ _ h := by cases h
  bound _ _ h := by cases h
  fresh _ h := by cases h
  own _ h := by cases h
  file _ h := by cases h
  contents _ h := by cases h
  separate _ _ h := by cases h
  opened _ h := by cases h
  unopened _ _ _ h := by cases h
  cleared _ _ _ h := by cases h

omit [DecidableEq P] in
/-- A step of the call of one object, which may remove files with the list locked, and change no
file but its own. -/
theorem of_object (h : s.Filed) (hlocked : s.Locked setup) (hlist : s.Transactional setup)
    {x : TraceExtensionLocal E} {c : Option Pc}
    (hobjects : s'.objects = Function.update s.objects o x)
    (hrunning : s'.running =
      Function.update s.running (setup.thread o) (c.map fun pc => (o, pc)))
    (hdirectory : ∀ id i, s'.directory id = some i → s.directory id = some i)
    (hremoval : s'.directory = s.directory ∨ s.listLock = some (setup.thread o))
    (hnext : s'.nextInode = s.nextInode)
    (hinodes : ∀ i, ((s.objects o).writable = true → i ≠ (s.objects o).inode) →
      s'.inodes i = s.inodes i)
    (hx : x.writable = true → (s.objects o).writable = true ∧ x.inode = (s.objects o).inode ∧
      x.hdr.id = (s.objects o).hdr.id ∧ s'.inodes x.inode = ⟨x.written, !x.isOpen⟩)
    (hopened : x.isOpen = true → x.writable = true)
    (hwithin : ∀ pc ∈ c, pc.Within → x.writable = false)
    (hcleared : ∀ pc ∈ c, pc.Cleared →
      ∃ i, s'.directory x.hdr.id = some i ∧ s'.inodes i = ⟨[], false⟩) : s'.Filed := by
  have hself : s'.objects o = x := by rw [hobjects, Function.update_self]
  have hother : ∀ o' ≠ o, s'.objects o' = s.objects o' := fun o' hne => by
    rw [hobjects, Function.update_of_ne hne]
  -- a writer was one before, with the same file
  have hbefore : ∀ o', (s'.objects o').writable = true → (s.objects o').writable = true ∧
      (s'.objects o').inode = (s.objects o').inode ∧
      (s'.objects o').hdr.id = (s.objects o').hdr.id := by
    intro o' hwrite
    by_cases ho : o' = o
    · subst ho
      rw [hself] at hwrite ⊢
      obtain ⟨hwritable, hinode, hid, -⟩ := hx hwrite
      exact ⟨hwritable, hinode, hid⟩
    · rw [hother o' ho] at hwrite ⊢
      exact ⟨hwrite, rfl, rfl⟩
  refine ⟨fun id id' i hi hi' => h.injective id id' i (hdirectory id i hi) (hdirectory id' i hi'),
    fun id i hi => hnext ▸ h.bound id i (hdirectory id i hi), ?_, ?_, ?_, ?_, ?_, ?_, ?_, ?_⟩
  · intro o' hwrite
    obtain ⟨hwritable, hinode, -⟩ := hbefore o' hwrite
    rw [hinode, hnext]
    exact h.fresh o' hwritable
  · intro o' hwrite id hid
    obtain ⟨hwritable, hinode, hid'⟩ := hbefore o' hwrite
    rw [hid']
    rw [hinode] at hid
    exact h.own o' hwritable id (hdirectory id _ hid)
  · intro o' hwrite i hi
    obtain ⟨hwritable, hinode, hid'⟩ := hbefore o' hwrite
    rw [hinode]
    rw [hid'] at hi
    exact h.file o' hwritable i (hdirectory _ i hi)
  · intro o' hwrite
    by_cases ho : o' = o
    · subst ho
      rw [hself] at hwrite ⊢
      exact (hx hwrite).2.2.2
    · rw [hother o' ho] at hwrite ⊢
      rw [hinodes _ fun hwritable heq => ho (h.separate o' o hwrite hwritable heq)]
      exact h.contents o' hwrite
  · intro o' o'' hwrite hwrite' hinode
    obtain ⟨hwritable, hinode', -⟩ := hbefore o' hwrite
    obtain ⟨hwritable', hinode'', -⟩ := hbefore o'' hwrite'
    exact h.separate o' o'' hwritable hwritable' (by rw [← hinode', hinode, hinode''])
  · intro o' hopen
    by_cases ho : o' = o
    · subst ho
      rw [hself] at hopen ⊢
      exact hopened hopen
    · rw [hother o' ho] at hopen ⊢
      exact h.opened o' hopen
  · intro t o' pc hpc hpc'
    rcases hlocked.calls hrunning hpc with ⟨rfl, -, hmem⟩ | ⟨hpc, -, ho⟩
    · rw [hself]
      exact hwithin pc hmem hpc'
    · rw [hother o' ho]
      exact h.unopened t o' pc hpc hpc'
  · intro t o' pc hpc hpc'
    rcases hlocked.calls hrunning hpc with ⟨rfl, -, hmem⟩ | ⟨hpc, ht, ho⟩
    · rw [hself]
      exact hcleared pc hmem hpc'
    · rw [hother o' ho]
      obtain ⟨i, hi, hempty⟩ := h.cleared t o' pc hpc hpc'
      have hsame : s'.directory = s.directory := by
        rcases hremoval with heq | hown
        · exact heq
        · rw [hlist.critical t o' pc hpc hpc'.critical] at hown
          exact absurd (Option.some.inj hown) ht
      refine ⟨i, hsame ▸ hi, ?_⟩
      rw [hinodes i fun hwritable heq => ho ?_]
      · exact hempty
      · have hid := h.own o hwritable _ (heq ▸ hi)
        exact hlocked.unique (hlocked.within t o' pc hpc hpc'.within) (hlocked.writable o hwritable)
          hid

omit [DecidableEq P] in
/-- A step of the call of one object that leaves the files and what it has written. -/
theorem keeps (h : s.Filed) (hlocked : s.Locked setup) (hlist : s.Transactional setup)
    {x : TraceExtensionLocal E} {c : Option Pc}
    (hobjects : s'.objects = Function.update s.objects o x)
    (hrunning : s'.running =
      Function.update s.running (setup.thread o) (c.map fun pc => (o, pc)))
    (hdirectory : s'.directory = s.directory) (hnext : s'.nextInode = s.nextInode)
    (hinodes : s'.inodes = s.inodes)
    (hx : x.writable = true → (s.objects o).writable = true ∧ x.inode = (s.objects o).inode ∧
      x.hdr.id = (s.objects o).hdr.id ∧ x.written = (s.objects o).written ∧
      x.isOpen = (s.objects o).isOpen)
    (hopened : x.isOpen = true → x.writable = true)
    (hwithin : ∀ pc ∈ c, pc.Within → x.writable = false)
    (hcleared : ∀ pc ∈ c, pc.Cleared →
      ∃ i, s.directory x.hdr.id = some i ∧ s.inodes i = ⟨[], false⟩) : s'.Filed := by
  refine h.of_object hlocked hlist hobjects hrunning (fun id i hi => hdirectory ▸ hi)
    (Or.inl hdirectory) hnext (fun i _ => by rw [hinodes]) (fun hwrite => ?_) hopened hwithin ?_
  · obtain ⟨hwritable, hinode, hid, hwritten, hisOpen⟩ := hx hwrite
    refine ⟨hwritable, hinode, hid, ?_⟩
    rw [hinodes, hinode, hwritten, hisOpen]
    exact h.contents o hwritable
  · rw [hdirectory, hinodes]
    exact hcleared

omit [DecidableEq P] in
/-- A step that changes neither the files nor the object. -/
theorem move (h : s.Filed) (hlocked : s.Locked setup) (hlist : s.Transactional setup)
    {c : Option Pc} (hobjects : s'.objects = s.objects)
    (hrunning : s'.running =
      Function.update s.running (setup.thread o) (c.map fun pc => (o, pc)))
    (hdirectory : s'.directory = s.directory) (hnext : s'.nextInode = s.nextInode)
    (hinodes : s'.inodes = s.inodes)
    (hwithin : ∀ pc ∈ c, pc.Within → (s.objects o).writable = false)
    (hcleared : ∀ pc ∈ c, pc.Cleared →
      ∃ i, s.directory (s.objects o).hdr.id = some i ∧ s.inodes i = ⟨[], false⟩) : s'.Filed :=
  h.keeps hlocked hlist (x := s.objects o) (by rw [hobjects, Function.update_eq_self]) hrunning
    hdirectory hnext hinodes (fun hwrite => ⟨hwrite, rfl, rfl, rfl, rfl⟩)
      (h.opened o) hwithin hcleared

omit [DecidableEq P] [DecidableEq T] [DecidableEq O] in
/-- A file that no writer has can be opened, and is created if it is missing. -/
theorem open' (h : s.Filed) (id : ℕ)
    (hnobody : ∀ o, (s.objects o).writable = true → (s.objects o).hdr.id ≠ id) :
    (s.openFile id).2.Filed ∧ (s.openFile id).2.directory id = some (s.openFile id).1 ∧
      ∀ o, (s.objects o).writable = true → (s.objects o).inode ≠ (s.openFile id).1 := by
  unfold openFile
  cases hfile : s.directory id with
  | some i =>
    refine ⟨h, hfile, fun o hwrite heq => hnobody o hwrite ?_⟩
    exact (h.own o hwrite id (by rw [heq, hfile])).symm
  | none =>
    have hfound : ∀ id' i, Function.update s.directory id (some s.nextInode) id' = some i →
        (id' = id ∧ i = s.nextInode) ∨ (id' ≠ id ∧ s.directory id' = some i) := by
      intro id' i hi
      by_cases hid : id' = id
      · subst hid
        rw [Function.update_self] at hi
        exact Or.inl ⟨rfl, (Option.some.inj hi).symm⟩
      · rw [Function.update_of_ne hid] at hi
        exact Or.inr ⟨hid, hi⟩
    have hne : ∀ o, (s.objects o).writable = true → (s.objects o).inode ≠ s.nextInode :=
      fun o hwrite => (h.fresh o hwrite).ne
    refine ⟨⟨?_, ?_, ?_, ?_, ?_, ?_, h.separate, h.opened, h.unopened, ?_⟩,
      Function.update_self _ _ _, hne⟩
    · intro id' id'' i hi hi'
      rcases hfound id' i hi with ⟨rfl, rfl⟩ | ⟨-, hold⟩
      · rcases hfound id'' _ hi' with ⟨rfl, -⟩ | ⟨-, hold'⟩
        · rfl
        · exact absurd (h.bound id'' _ hold') (lt_irrefl _)
      · rcases hfound id'' i hi' with ⟨rfl, rfl⟩ | ⟨-, hold'⟩
        · exact absurd (h.bound id' _ hold) (lt_irrefl _)
        · exact h.injective id' id'' i hold hold'
    · intro id' i hi
      rcases hfound id' i hi with ⟨-, rfl⟩ | ⟨-, hi⟩
      · exact Nat.lt_succ_self _
      · exact (h.bound id' i hi).trans (Nat.lt_succ_self _)
    · exact fun o hwrite => (h.fresh o hwrite).trans (Nat.lt_succ_self _)
    · intro o hwrite id' hi
      rcases hfound id' _ hi with ⟨-, heq⟩ | ⟨-, hi⟩
      · exact absurd heq (hne o hwrite)
      · exact h.own o hwrite id' hi
    · intro o hwrite i hi
      rcases hfound _ i hi with ⟨heq, -⟩ | ⟨-, hi⟩
      · exact absurd heq (hnobody o hwrite)
      · exact h.file o hwrite i hi
    · intro o hwrite
      change Function.update s.inodes s.nextInode _ _ = _
      rw [Function.update_of_ne (hne o hwrite)]
      exact h.contents o hwrite
    · intro t o pc hpc hpc'
      obtain ⟨i, hi, hempty⟩ := h.cleared t o pc hpc hpc'
      have hid : (s.objects o).hdr.id ≠ id := by
        intro heq
        rw [heq, hfile] at hi
        cases hi
      refine ⟨i, ?_, ?_⟩
      · exact (Function.update_of_ne hid _ _).trans hi
      · exact (Function.update_of_ne (h.bound _ i hi).ne _ _).trans hempty

omit [DecidableEq P] [DecidableEq O] in
theorem clear (h : s.Filed) (hlocked : s.Locked setup)
    {lst : List TraceExtensionHeader} (hpc : s.running (setup.thread o) = some (o, .clear lst)) :
    (s.clear setup o lst).Filed := by
  have hlock := hlocked.within _ o _ hpc trivial
  have hunopened := h.unopened _ o _ hpc trivial
  obtain ⟨hfiled, hfile, hnobody⟩ := h.open' (s.objects o).hdr.id fun o' hwrite hid => by
    obtain rfl := hlocked.unique (hlocked.writable o' hwrite) hlock hid
    rw [hwrite] at hunopened
    cases hunopened
  obtain ⟨hobjects, hrunning, -, -, -⟩ := openFile_frame (s.objects o).hdr.id s
  generalize hfileEq : s.openFile (s.objects o).hdr.id = file at *
  have hcontents : ∀ i file', file.2.inodes i = ⟨[], false⟩ →
      Function.update file.2.inodes file' ⟨[], false⟩ i = ⟨[], false⟩ := by
    intro i file' hempty
    by_cases hi : i = file'
    · rw [hi, Function.update_self]
    · rw [Function.update_of_ne hi, hempty]
  have hdef : s.clear setup o lst = { file.2 with
      inodes := Function.update file.2.inodes file.1 ⟨[], false⟩ }.goTo (setup.thread o) o
        (.writeList lst) := by
    unfold Storage.clear
    rw [hfileEq]
  rw [hdef]
  refine ⟨hfiled.injective, hfiled.bound, hfiled.fresh, hfiled.own, hfiled.file,
    fun o' hwrite => ?_,
    hfiled.separate, hfiled.opened, fun t o' pc hpc' hpc'' => ?_, fun t o' pc hpc' hpc'' => ?_⟩
  · change Function.update file.2.inodes file.1 _ (file.2.objects o').inode = _
    have hne : (file.2.objects o').inode ≠ file.1 := by
      rw [hobjects]
      exact hnobody o' (hobjects ▸ hwrite)
    rw [Function.update_of_ne hne]
    exact hfiled.contents o' hwrite
  · rcases hlocked.calls (c := some (.writeList lst)) (congrArg (Function.update · _ _) hrunning)
      hpc' with ⟨rfl, -, -⟩ | ⟨hpc', -, -⟩
    · change (file.2.objects o').writable = false
      rw [hobjects, hunopened]
    · exact hfiled.unopened t o' pc (hrunning ▸ hpc') hpc''
  · rcases hlocked.calls (c := some (.writeList lst)) (congrArg (Function.update · _ _) hrunning)
      hpc' with ⟨rfl, -, -⟩ | ⟨hpc', -, -⟩
    · refine ⟨file.1, ?_, Function.update_self _ _ _⟩
      change file.2.directory (file.2.objects o').hdr.id = _
      rw [hobjects, hfile]
    · obtain ⟨i, hi, hempty⟩ := hfiled.cleared t o' pc (hrunning ▸ hpc') hpc''
      exact ⟨i, hi, hcontents i file.1 hempty⟩

omit [DecidableEq P] in
/-- The writer opens the file that its constructor has cleared. -/
theorem openWriter_spec (h : s.Filed) (hpc : s.running (setup.thread o) = some (o, .openWriter)) :
    ∃ i, s.directory (s.objects o).hdr.id = some i ∧ s.inodes i = ⟨[], false⟩ ∧
      s.openWriter setup o = (s.setObject o { s.objects o with
        writable := true, isOpen := true, inode := i, written := []
        withdrawn := false }).unlockList (setup.thread o) := by
  obtain ⟨i, hi, hempty⟩ := h.cleared _ o _ hpc trivial
  have hopen : s.openFile (s.objects o).hdr.id = (i, s) := by
    unfold openFile
    rw [hi]
  refine ⟨i, hi, hempty, ?_⟩
  unfold Storage.openWriter
  dsimp only
  rw [hopen]

omit [DecidableEq P] in
theorem openWriter (h : s.Filed) (hlocked : s.Locked setup)
    (hpc : s.running (setup.thread o) = some (o, .openWriter)) : (s.openWriter setup o).Filed := by
  have hlock := hlocked.within _ o _ hpc trivial
  obtain ⟨i, hi, hempty, hdef⟩ := h.openWriter_spec hpc
  rw [hdef]
  -- another writer of this file would have its lock
  have hother : ∀ o' ≠ o, (s.objects o').writable = true →
      (s.objects o').hdr.id ≠ (s.objects o).hdr.id := fun o' hne hwrite hid =>
    hne (hlocked.unique (hlocked.writable o' hwrite) hlock hid)
  refine ⟨h.injective, h.bound, fun o' hwrite => ?_, fun o' hwrite => ?_, fun o' hwrite => ?_,
    fun o' hwrite => ?_, fun o' o'' hwrite hwrite' => ?_, fun o' hisOpen => ?_,
    fun t o' pc hpc' hpc'' => ?_, fun t o' pc hpc' hpc'' => ?_⟩
  rotate_right 2
  · rcases hlocked.calls (c := none) rfl hpc' with ⟨-, -, hmem⟩ | ⟨hpc', -, ho⟩
    · cases hmem
    · exact (congrArg _ (Function.update_of_ne ho _ _)).trans (h.unopened t o' pc hpc' hpc'')
  · rcases hlocked.calls (c := none) rfl hpc' with ⟨-, -, hmem⟩ | ⟨hpc', -, ho⟩
    · cases hmem
    · obtain ⟨i', hi', hempty'⟩ := h.cleared t o' pc hpc' hpc''
      refine ⟨i', ?_, hempty'⟩
      change s.directory (Function.update s.objects o _ o').hdr.id = some i'
      rw [Function.update_of_ne ho, hi']
  all_goals simp only [setObject, unlockList, leave] at *
  · by_cases ho : o' = o
    · subst ho
      rw [Function.update_self]
      exact h.bound _ i hi
    · rw [Function.update_of_ne ho] at hwrite ⊢
      exact h.fresh o' hwrite
  · by_cases ho : o' = o
    · subst ho
      rw [Function.update_self]
      exact fun id hid => h.injective id _ i hid hi
    · rw [Function.update_of_ne ho] at hwrite ⊢
      exact h.own o' hwrite
  · by_cases ho : o' = o
    · subst ho
      rw [Function.update_self]
      exact fun i' hi' => Option.some.inj (hi'.symm.trans hi)
    · rw [Function.update_of_ne ho] at hwrite ⊢
      exact h.file o' hwrite
  · by_cases ho : o' = o
    · subst ho
      rw [Function.update_self]
      exact hempty
    · rw [Function.update_of_ne ho] at hwrite ⊢
      exact h.contents o' hwrite
  · by_cases ho : o' = o
    · subst ho
      by_cases ho' : o'' = o'
      · exact fun _ => ho'.symm
      · rw [Function.update_self, Function.update_of_ne ho'] at *
        intro hinode
        exact absurd (h.own o'' hwrite' _ (hinode ▸ hi)).symm (hother o'' ho' hwrite')
    · by_cases ho' : o'' = o
      · subst ho'
        rw [Function.update_self, Function.update_of_ne ho] at *
        intro hinode
        exact absurd (h.own o' hwrite _ (hinode ▸ hi)).symm (hother o' ho hwrite)
      · rw [Function.update_of_ne ho, Function.update_of_ne ho'] at *
        exact h.separate o' o'' hwrite hwrite'
  · by_cases ho : o' = o
    · subst ho
      rw [Function.update_self]
    · rw [Function.update_of_ne ho] at hisOpen ⊢
      exact h.opened o' hisOpen

theorem readList (h : s.Filed) (hlocked : s.Locked setup) (hlist : s.Transactional setup)
    (hpc : s.running (setup.thread o) = some (o, .readList)) : (s.readList setup o).Filed := by
  have hunwritten := hlocked.unwritten (hlocked.before _ o _ hpc trivial)
  have hnever : ∀ q : Prop, (s.objects o).writable = true → q := fun q hwrite => by
    rw [hunwritten] at hwrite
    cases hwrite
  have hshut : (s.objects o).isOpen = true → (s.objects o).writable = true := h.opened o
  have hspec := readList_spec setup s o
  generalize s.readList setup o = s' at hspec
  cases hspec with
  | duplicate =>
    exact h.keeps (c := none) hlocked hlist rfl rfl rfl rfl rfl (fun hwrite => by cases hwrite)
      (fun hopen => by cases hopen) (by simp) (by simp)
  | ready | busy =>
    exact h.keeps (c := none) hlocked hlist rfl rfl rfl rfl rfl (hnever _) hshut (by simp) (by simp)
  | new | stale =>
    refine h.keeps (c := some (.lockExtension _)) hlocked hlist rfl rfl rfl rfl rfl (hnever _) hshut
      ?_ ?_
    · rintro pc ⟨⟩ ⟨⟩
    · rintro pc ⟨⟩ ⟨⟩
  | abandoned =>
    refine h.keeps (c := some (.clear _)) hlocked hlist rfl rfl rfl rfl rfl (hnever _) hshut ?_ ?_
    · rintro pc ⟨⟩ -
      exact hunwritten
    · rintro pc ⟨⟩ ⟨⟩

omit [DecidableEq P] in
/-- The rest of the records is on the file when it is closed. -/
theorem closeWriter (h : s.Filed) (hlocked : s.Locked setup) (hlist : s.Transactional setup) :
    (s.closeWriter setup o).Filed := by
  unfold Storage.closeWriter
  dsimp only
  split_ifs with hopen
  · refine h.of_object (x := { s.objects o with isOpen := false }) (c := some (.lockList .commit))
      hlocked hlist rfl rfl (fun _ _ hi => hi) (Or.inl rfl) rfl (fun i hi => ?_) (fun hwrite => ?_)
      (fun hopen => by cases hopen) ?_ ?_
    · exact Function.update_of_ne (hi (h.opened o hopen)) _ _
    · refine ⟨hwrite, rfl, rfl, ?_⟩
      change Function.update s.inodes (s.objects o).inode _ (s.objects o).inode = _
      rw [Function.update_self, h.contents o hwrite, List.take_length]
      rfl
    · rintro pc ⟨⟩ ⟨⟩
    · rintro pc ⟨⟩ ⟨⟩
  · exact h.move (o := o) (c := none) hlocked hlist rfl rfl rfl rfl rfl (by simp) (by simp)

omit [DecidableEq P] in
theorem removeFile (h : s.Filed) (hlocked : s.Locked setup) (hlist : s.Transactional setup)
    {op : ListOperation} {removed : Bool}
    (hpc : s.running (setup.thread o) = some (o, .removeFile op)) :
    (s.removeFile setup o op removed).Filed := by
  have hdirectory : ∀ id i, (s.removeFile setup o op removed).directory id = some i →
      s.directory id = some i := by
    intro id i hi
    simp only [Storage.removeFile, goTo, setObject] at hi
    split_ifs at hi
    · exact hi
    · by_cases hid : id = (s.objects o).hdr.id
      · subst hid
        rw [Function.update_self] at hi
        cases hi
      · rwa [Function.update_of_ne hid] at hi
  refine h.of_object (x := { s.objects o with withdrawn := true }) (c := some (.rewriteList op))
    hlocked hlist rfl rfl hdirectory (Or.inr (hlist.critical _ o _ hpc trivial)) rfl
    (fun _ _ => rfl) (fun hwrite => ⟨hwrite, rfl, rfl, h.contents o hwrite⟩) (h.opened o) ?_ ?_
  · rintro pc ⟨⟩ ⟨⟩
  · rintro pc ⟨⟩ ⟨⟩

theorem advance (h : s.Filed) (hlocked : s.Locked setup) (hlist : s.Transactional setup) {pc : Pc}
    {removed : Bool} (hpc : s.running (setup.thread o) = some (o, pc)) :
    (s.advance setup o pc removed).Filed := by
  have hsame : (s.objects o).writable = true → (s.objects o).writable = true ∧
      (s.objects o).inode = (s.objects o).inode ∧ (s.objects o).hdr.id = (s.objects o).hdr.id ∧
      (s.objects o).written = (s.objects o).written ∧
      (s.objects o).isOpen = (s.objects o).isOpen := fun hwrite => ⟨hwrite, rfl, rfl, rfl, rfl⟩
  cases pc with
  | lockList op =>
    unfold Storage.advance
    dsimp only
    split
    · exact h
    · refine h.move (c := some _) hlocked hlist rfl rfl rfl rfl rfl ?_ ?_
      · rintro pc ⟨⟩ hin
        cases op <;> cases hin
      · rintro pc ⟨⟩ hin
        cases op <;> cases hin
  | readList => exact h.readList hlocked hlist hpc
  | lockExtension lst =>
    change (s.lockExtension setup o lst).Filed
    unfold Storage.lockExtension
    dsimp only
    split_ifs
    · refine h.keeps (x := { s.objects o with lockFd := true, locked := true })
        (c := some (.clear lst)) hlocked hlist rfl rfl rfl rfl rfl hsame (h.opened o) ?_ ?_
      · rintro pc ⟨⟩ -
        exact hlocked.unwritten (hlocked.before _ o _ hpc trivial)
      · rintro pc ⟨⟩ ⟨⟩
    · exact h
  | clear lst => exact h.clear hlocked hpc
  | writeList lst =>
    refine h.move (c := some .openWriter) hlocked hlist rfl rfl rfl rfl rfl ?_ ?_
    · rintro pc ⟨⟩ -
      exact h.unopened _ o _ hpc trivial
    · rintro pc ⟨⟩ -
      exact h.cleared _ o _ hpc trivial
  | openWriter => exact h.openWriter hlocked hpc
  | closeWriter => exact h.closeWriter hlocked hlist
  | setReady =>
    change (s.setReady setup o).Filed
    unfold Storage.setReady
    dsimp only
    split_ifs
    · exact h.keeps (c := none) hlocked hlist rfl rfl rfl rfl rfl hsame (h.opened o) (by simp)
        (by simp)
    · exact h.move (o := o) (c := none) hlocked hlist rfl rfl rfl rfl rfl (by simp) (by simp)
  | removeFile op => exact h.removeFile hlocked hlist hpc
  | rewriteList op =>
    change (s.rewriteList setup o op).Filed
    unfold Storage.rewriteList
    dsimp only
    split_ifs
    · refine h.move (c := some .release) hlocked hlist rfl rfl rfl rfl rfl ?_ ?_
      · rintro pc ⟨⟩ ⟨⟩
      · rintro pc ⟨⟩ ⟨⟩
    · exact h.move (o := o) (c := none) hlocked hlist rfl rfl rfl rfl rfl (by simp) (by simp)
  | release =>
    obtain ⟨hobjects, hrunning, -, -, hdirectory, hnext⟩ := release_frame setup o s
    refine h.of_object (c := none) hlocked hlist hobjects hrunning (fun id i hi => hdirectory ▸ hi)
      (Or.inl hdirectory) hnext (fun i hi => ?_) (fun hwrite => by cases hwrite)
      (fun hopen => by cases hopen) (by simp) (by simp)
    exact (release_files setup o s).2 i fun hopen => hi (h.opened o hopen)

omit [DecidableEq T] [DecidableEq O] in
theorem die (h : s.Filed) (hlocked : s.Locked setup) (p : P) : (s.die setup p).Filed := by
  have hobject : ∀ o, (s.die setup p).objects o = s.objects o ∨
      (s.die setup p).objects o = .absent E := by
    intro o
    by_cases hp : setup.processOf o = p
    · exact Or.inr (if_pos hp)
    · exact Or.inl (if_neg hp)
  have hwriter : ∀ o, ((s.die setup p).objects o).writable = true →
      (s.die setup p).objects o = s.objects o := by
    intro o hwrite
    rcases hobject o with heq | heq
    · exact heq
    · rw [heq] at hwrite
      cases hwrite
  refine ⟨h.injective, h.bound, fun o hwrite => ?_, fun o hwrite => ?_, fun o hwrite => ?_,
    fun o hwrite => ?_, fun o o' hwrite hwrite' => ?_, fun o hopen => ?_, fun t o pc hpc => ?_,
    fun t o pc hpc => ?_⟩
  · have hsame := hwriter o hwrite
    rw [hsame] at hwrite ⊢
    exact h.fresh o hwrite
  · have hsame := hwriter o hwrite
    rw [hsame] at hwrite ⊢
    exact h.own o hwrite
  · have hsame := hwriter o hwrite
    rw [hsame] at hwrite ⊢
    exact h.file o hwrite
  · have hsame := hwriter o hwrite
    rw [hsame] at hwrite ⊢
    exact h.contents o hwrite
  · have hsame := hwriter o hwrite
    have hsame' := hwriter o' hwrite'
    rw [hsame] at hwrite ⊢
    rw [hsame'] at hwrite' ⊢
    exact h.separate o o' hwrite hwrite'
  · rcases hobject o with heq | heq
    · rw [heq] at hopen ⊢
      exact h.opened o hopen
    · rw [heq] at hopen
      cases hopen
  · obtain ⟨hpc, -, hsame⟩ := hlocked.survives hpc
    rw [hsame]
    exact h.unopened t o pc hpc
  · obtain ⟨hpc, -, hsame⟩ := hlocked.survives hpc
    rw [hsame]
    exact h.cleared t o pc hpc

theorem step (h : s.Filed) (hlocked : s.Locked setup) (hlist : s.Transactional setup)
    (action : Action P T O E) : (s.step setup action).Filed := by
  have hbegins : ∀ (o : O) (pc : Pc), ¬ pc.Within → ¬ pc.Cleared →
      (s.goTo (setup.thread o) o pc).Filed := by
    intro o c hwithin hcleared
    refine h.move (c := some c) hlocked hlist rfl rfl rfl rfl rfl ?_ ?_
    · rintro pc ⟨⟩ hin
      exact absurd hin hwithin
    · rintro pc ⟨⟩ hin
      exact absurd hin hcleared
  have hsteps := hlocked.steps action
  generalize s.step setup action = s' at hsteps
  cases hsteps with
  | construct o extName =>
    refine h.keeps (c := some (.lockList .construct)) hlocked hlist rfl rfl rfl rfl rfl
      (fun hwrite => by cases hwrite) (fun hopen => by cases hopen) ?_ ?_
    · rintro pc ⟨⟩ ⟨⟩
    · rintro pc ⟨⟩ ⟨⟩
  | write o record hidle hopen =>
    refine h.of_object (c := none) hlocked hlist rfl ?_ (fun _ _ hi => hi) (Or.inl rfl) rfl
      (fun i hi => ?_) (fun hwrite => ⟨hwrite, rfl, rfl, ?_⟩) (h.opened o) (by simp) (by simp)
    · exact (Function.update_eq_self_iff.mpr hidle.1.symm).symm
    · exact Function.update_of_ne (hi (h.opened o hopen)) _ _
    · change Function.update s.inodes (s.objects o).inode _ (s.objects o).inode = _
      rw [Function.update_self, h.contents o hwrite]
      simp [hopen]
  | commit o => exact hbegins o .closeWriter id id
  | remove o => exact hbegins o (.lockList .remove) id id
  | destroy o => exact hbegins o (.lockList .destroy) id id
  | release o => exact hbegins o .release id id
  | advance o pc removed hpc => exact h.advance hlocked hlist hpc
  | die p => exact h.die hlocked p
  | stay => exact h

end Filed

/-- What holds in every state that is reached with locks that are kept. -/
structure Sound (setup : Setup P T O) (s : Storage P T O E) : Prop where
  locked : s.Locked setup
  transactional : s.Transactional setup
  filed : s.Filed

omit [DecidableEq P] [DecidableEq T] [DecidableEq O] in
theorem Sound.init : (Storage.init : Storage P T O E).Sound setup :=
  ⟨Locked.init, Transactional.init, Filed.init⟩

theorem Sound.step (h : s.Sound setup) {action : Action P T O E}
    (hkeeps : KeepsLocks setup action s) : (s.step setup action).Sound setup :=
  ⟨h.locked.step hkeeps, h.transactional.step h.locked hkeeps,
    h.filed.step h.locked h.transactional action⟩

/-- The list names no extension and no file twice, and no two writers have one file. -/
structure Exclusive (s : Storage P T O E) : Prop where
  names : (s.list.map fun extHdr => extHdr.name).Nodup
  ids : (s.list.map fun extHdr => extHdr.id).Nodup
  files : ∀ o o', (s.objects o).writable = true → (s.objects o').writable = true → o ≠ o' →
    (s.objects o).hdr.id ≠ (s.objects o').hdr.id ∧ (s.objects o).inode ≠ (s.objects o').inode

/-- Extensions are exclusive in every run that keeps the locks. -/
theorem run_exclusive (setup : Setup P T O) (actions : List (Action P T O E))
    (h : Meets (step setup) (KeepsLocks setup) actions init) :
    (run (step setup) actions init).Exclusive := by
  have hsound := run_invariant (P := Sound setup) (fun _ _ hkeeps hs => hs.step hkeeps) h Sound.init
  obtain ⟨hnames, hids⟩ := hsound.locked.list.nodup
  refine ⟨hnames, hids, fun o o' hwrite hwrite' hne => ⟨fun hid => hne ?_, fun hinode => hne ?_⟩⟩
  · exact hsound.locked.unique (hsound.locked.writable o hwrite)
      (hsound.locked.writable o' hwrite') hid
  · exact hsound.filed.separate o o' hwrite hwrite' hinode

/-- Two processes with one thread and one object each. -/
def twoProcesses (version : Bool → String) : Setup Bool Bool Bool := ⟨id, id, version⟩

/-- One process builds an extension while the other one looks for it. -/
def buildsWatched : List (Action Bool Bool Bool ℕ) :=
  .construct false "io" :: List.replicate 6 (.advance false true) ++
    [.write false 7, .construct true "io", .advance true true, .advance true true, .commit false] ++
    List.replicate 3 (.advance false true) ++ [.destroy false, .advance false true]

theorem buildsWatched_exclusive :
    (run (step (twoProcesses fun _ => "21.6")) buildsWatched init).Exclusive :=
  run_exclusive (twoProcesses fun _ => "21.6") buildsWatched (by decide +kernel)

/-- One thread for each object; the second and the third are of one process. -/
def threeProcesses : Setup ℕ ℕ ℕ where
  thread o := o
  process t := if t = 0 then 0 else if t = 3 then 2 else 1
  version _ := "21.6"

/-- A process with one thread for each object. -/
def manyProcesses (version : ℕ → String) : Setup ℕ ℕ ℕ := ⟨id, id, version⟩

/-- The calls of a constructor that gets its extension's lock without waiting. -/
def constructs (o : ℕ) (extName : String) (steps : ℕ) : List (Action ℕ ℕ ℕ ℕ) :=
  .construct o extName :: List.replicate steps (.advance o true)

/-- A process finds an extension being built and keeps the descriptor; when the builder has died it
takes the build over with another object, and then closes the descriptor. -/
def closesDescriptor : List (Action ℕ ℕ ℕ ℕ) :=
  constructs 0 "io" 6 ++ constructs 1 "io" 2 ++ [.die 0] ++ constructs 2 "io" 5 ++
    [.destroy 1, .advance 1 true] ++ constructs 3 "io" 5

/-- Then another process locks the extension, too. -/
theorem closesDescriptor_not_exclusive :
    ¬ (run (step threeProcesses) closesDescriptor init).Exclusive := by
  intro h
  have hwrite : ((run (step threeProcesses) closesDescriptor init).objects 2).writable = true ∧
      ((run (step threeProcesses) closesDescriptor init).objects 3).writable = true ∧
      ((run (step threeProcesses) closesDescriptor init).objects 2).hdr.id =
        ((run (step threeProcesses) closesDescriptor init).objects 3).hdr.id := by
    decide +kernel
  exact (h.files 2 3 hwrite.1 hwrite.2.1 (by decide)).1 hwrite.2.2

end Storage

end Octf.Extension
