import Octf.Utils.RemovalRuns

/-! When a recursive removal stays in its subtree. -/
namespace Octf.Utils.fsutils
open Foundation FileTree

/-- What a removal may do: nothing outside of the subtree is touched, and if it succeeds, nothing of
the subtree is left. -/
structure InSubtree (fs : FileTree) (cwd : ℕ) (path : Pathname) (result : Bool) (fs' : FileTree) :
    Prop where
  kind : fs'.kind = fs.kind
  outside : ∀ x n, ¬ fs.AtOrBelow cwd path x n → fs'.lookup x n = fs.lookup x n
  inside : result = true → ∀ x n, fs.AtOrBelow cwd path x n → fs'.lookup x n = none

def StaysInSubtree (fs : FileTree) (cwd : ℕ) (path : Pathname) : Prop :=
  ∀ descriptors answers, InSubtree fs cwd path (removeFile descriptors cwd path ⟨fs, answers⟩).1
    (removeFile descriptors cwd path ⟨fs, answers⟩).2.fs

variable {fs t t' : FileTree} {cwd d i x : ℕ} {path p : Pathname} {n : String}
  {names : List Component} {result : Bool}

/-! ### What is gone -/

/-- A directory whose entry is gone has none left. -/
def Emptied (fs t : FileTree) : Prop :=
  ∀ x n i, fs.lookup x n = some i → fs.kind i = .directory → t.lookup x n = none →
    t.entries i = []

theorem Emptied.erase (h : Emptied fs t) (hsub : t.Sub fs) (hn : t.lookup x n = some i)
    (hempty : t.kind i = .directory → t.entries i = []) : Emptied fs (t.erase x n) := by
  have hstay : ∀ k, t.entries k = [] → (t.erase x n).entries k = [] := fun k hk =>
    entries_eq_nil.mpr fun m => (Sub.erase x n t).lookup_none (entries_eq_nil.mp hk m)
  intro y m k hy hdir hgone
  rw [lookup_erase] at hgone
  split_ifs at hgone with hsame
  · obtain ⟨rfl, rfl⟩ := hsame
    obtain rfl := Option.some.inj ((hsub.lookup _ _ _ hn).symm.trans hy)
    exact hstay _ (hempty (by rwa [hsub.kind]))
  · exact hstay k (h y m k hy hdir hgone)

theorem Removes.emptied {task : Task} (h : Removes cwd task fs result t) : Emptied fs t := by
  have hboth : t.Sub fs ∧ Emptied fs t := by
    refine h.preserves (P := fun t => t.Sub fs ∧ Emptied fs t) ?_ ⟨Sub.refl fs, ?_⟩
    · intro t x n i ht hn hempty
      exact ⟨(Sub.erase x n t).trans ht.1, ht.2.erase ht.1 hn hempty⟩
    · intro x n i hn _ hgone
      rw [hn] at hgone
      cases hgone
  exact hboth.2

theorem Emptied.below (h : Emptied fs t) (hi : t.entries i = []) (hbelow : fs.Below i x) :
    t.entries x = [] := by
  induction hbelow with
  | refl => exact hi
  | tail _ hstep ih =>
    obtain ⟨n, hn, hdir⟩ := hstep
    exact h _ n _ hn hdir (entries_eq_nil.mp ih n)

/-- The last removal: the entry at the path, when it holds nothing. -/
theorem inSubtree_of_erase (hsub : t.Sub fs) (hkept : Kept fs cwd path t) (hemptied : Emptied fs t)
    (he : t.entryOf cwd path = some (x, n)) (hn : t.lookup x n = some i)
    (hempty : t.kind i = .directory → t.entries i = [])
    (hname : t.kind i ≠ .directory → t.nameOf cwd path = some (x, n)) :
    InSubtree fs cwd path result (t.erase x n) := by
  have hx := hsub.lookup _ _ _ hn
  have hat : fs.At cwd path x n := by
    by_cases hdir : fs.kind i = .directory
    · exact At.of_entryOf (hsub.entryOf he) hx hdir
    · exact .inl (hsub.nameOf (hname (by rwa [hsub.kind])))
  refine ⟨hsub.kind, hkept.erase (.inl hat), ?_⟩
  rintro - y m (hy | ⟨k, hk, hdir, hbelow⟩)
  · obtain ⟨rfl, rfl⟩ := hy.unique hat
    simp [lookup_erase]
  · obtain rfl := Option.some.inj ((hat.lstat hx).symm.trans hk)
    have hnone := entries_eq_nil.mp (hemptied.below (hempty (by rwa [hsub.kind])) hbelow) m
    exact (Sub.erase x n t).lookup_none hnone

theorem Contained.ready (fs : FileTree) (cwd : ℕ) (path : Pathname) :
    Task.Ready fs cwd path (.directory path) fs where
  sub := Sub.refl fs
  kept _ _ _ := rfl
  fits := .path
  settled x n i hsole _ _ _ := by simp [hsole.lookup]
  alive x n i hat hdir _ _ hn := .inl (openDirectory_of_lstat (hat.lstat hn) hdir)

/-- A run that fails leaves the rest alone. -/
theorem inSubtree_of_false (hrun : Removes cwd (.directory path) fs false t)
    (hc : Contained fs cwd path) : InSubtree fs cwd path false t :=
  ⟨hrun.sub.kind, (hrun.kept_of_contained hc (Contained.ready fs cwd path)).1,
    fun h => by simp at h⟩

theorem Contained.staysInSubtree (hc : Contained fs cwd path) : StaysInSubtree fs cwd path := by
  have hready := Contained.ready fs cwd path
  intro descriptors answers
  rcases removeFile_cases descriptors cwd path ⟨fs, answers⟩ with
    ⟨hresult, hfs⟩ | ⟨result, t, hrun, ⟨hresult, hfs⟩ | hremove⟩
  · rw [hresult, hfs]
    exact ⟨rfl, fun _ _ _ => rfl, fun h => by simp at h⟩
  · rw [hresult, hfs]
    cases hrun with
    | closed => exact inSubtree_of_false .closed hc
    | kept hd hnames hloop => exact inSubtree_of_false (.kept hd hnames hloop) hc
    | removed hd hnames hloop hrmdir =>
      obtain ⟨x, n, i, he, hn, hdir, hempty, rfl⟩ := rmdir_eq_some.mp hrmdir
      exact inSubtree_of_erase hloop.sub (hloop.kept_of_contained hc (hready.loop hd hnames)).1
        hloop.emptied he hn (fun _ => hempty) fun hne => absurd hdir hne
  · obtain ⟨x, n, i, he, hn, hempty, hname, heq⟩ := remove_eq_some hremove
    rw [heq]
    exact inSubtree_of_erase hrun.sub (hrun.kept_of_contained hc hready).1 hrun.emptied he hn hempty
      hname

/-! ### Runs that leave the subtree -/

def granted : Answer := ⟨false, [], false⟩

def refused : Answer := ⟨true, [], false⟩

def reads (order : List Component) : Answer := ⟨false, order, false⟩

/-- Some call of `removeDirectory` takes an entry away. -/
def Loses (fs : FileTree) (cwd : ℕ) (p : Pathname) (x : ℕ) (n : String) : Prop :=
  ∃ descriptors answers, (removeDirectory cwd descriptors p ⟨fs, answers⟩).2.fs.lookup x n = none

/-- The order in which a name is read first. -/
def first (n : String) (d : ℕ) (fs : FileTree) : List Component :=
  .name n :: (listing d fs).erase (.name n)

theorem first_perm (hn : fs.lookup d n ≠ none) : (first n d fs).Perm (listing d fs) := by
  obtain ⟨i, hi⟩ := Option.ne_none_iff_exists'.mp hn
  have hmem : Component.name n ∈ listing d fs :=
    List.mem_cons_of_mem _ (List.mem_cons_of_mem _
      (List.mem_map.mpr ⟨_, lookup_eq_some.mp hi, rfl⟩))
  exact (List.perm_cons_erase hmem).symm

theorem opendir_reads {answers : List Answer} (hd : fs.openDirectory cwd p = some d)
    (hnames : names.Perm (listing d fs)) :
    opendir cwd p ⟨fs, reads names :: answers⟩ = (some (d, names), ⟨fs, answers⟩) := by
  simp [opendir, Process.ask, reads, hd, hnames]

theorem tryRemoval_granted {removal : FileTree → Option FileTree} {answers : List Answer}
    (h : removal t = some t') :
    Process.tryRemoval removal ⟨t, granted :: answers⟩ = (true, ⟨t', answers⟩) := by
  simp [Process.tryRemoval, Process.ask, granted, h]

theorem isType_granted {answers : List Answer} {entry : Component}
    (h : t.openDirectory cwd [entry] ≠ none) :
    isType cwd entry ⟨t, granted :: answers⟩ = (true, ⟨t, answers⟩) := by
  simp [isType, Process.ask, granted, h]

theorem isType_refused {answers : List Answer} {entry : Component} :
    isType cwd entry ⟨t, refused :: answers⟩ = (false, ⟨t, answers⟩) := by
  simp [isType, Process.ask, refused]

variable {recurse : Pathname → Process → Bool × Process} {answers : List Answer} {descriptors : ℕ}

/-- A round in which `isType` fails, so that the entry is removed by its path. -/
theorem removeEntries_entry (h : t.remove cwd (p ++ [.name n]) = some t') :
    removeEntries recurse cwd p d (.name n :: names)
      ⟨t, granted :: refused :: granted :: answers⟩ =
        removeEntries recurse cwd p d names ⟨t', answers⟩ := by
  rw [removeEntries]
  simp only [Process.ask, List.headD_cons, List.tail_cons, isType_refused, tryRemoval_granted h]
  simp [granted, isRealFile]

/-- A round with a nested call. -/
theorem removeEntries_nested (h : t.openDirectory cwd [.name n] ≠ none) :
    removeEntries recurse cwd p d (.name n :: names) ⟨t, granted :: granted :: answers⟩ =
      if (recurse [.name n] ⟨t, answers⟩).1 then
        removeEntries recurse cwd p d names (recurse [.name n] ⟨t, answers⟩).2
      else (false, (recurse [.name n] ⟨t, answers⟩).2) := by
  rw [removeEntries]
  simp only [Process.ask, List.headD_cons, List.tail_cons, isType_granted h]
  simp [granted, isRealFile]

theorem removeEntries_refused {entry : Component} :
    removeEntries recurse cwd p d (entry :: names) ⟨t, refused :: answers⟩ =
      (true, ⟨t, answers⟩) := by
  simp [removeEntries, Process.ask, refused]

theorem removeDirectory_reads (hd : fs.openDirectory cwd p = some d)
    (hnames : names.Perm (listing d fs)) :
    removeDirectory cwd (descriptors + 1) p ⟨fs, reads names :: answers⟩ =
      if (removeEntries (removeDirectory cwd descriptors) cwd p d names ⟨fs, answers⟩).1 then
        (removeEntries (removeDirectory cwd descriptors) cwd p d names
          ⟨fs, answers⟩).2.tryRemoval (·.rmdir cwd p)
      else (false, (removeEntries (removeDirectory cwd descriptors) cwd p d names
        ⟨fs, answers⟩).2) := by
  rw [removeDirectory, opendir_reads hd hnames]

/-- What is gone stays gone. -/
theorem tryRemoval_lookup_none {removal : FileTree → Option FileTree} {s : Process}
    (hsub : ∀ t t', removal t = some t' → t'.Sub t) (h : s.fs.lookup x n = none) :
    (s.tryRemoval removal).2.fs.lookup x n = none := by
  rcases tryRemoval_cases removal s with ⟨fs, hfs, -, heq⟩ | ⟨-, heq⟩
  · rw [heq]
    exact (hsub _ _ hfs).lookup_none h
  · rwa [heq]

theorem removeEntries_lookup_none {s : Process} (h : s.fs.lookup x n = none) :
    (removeEntries (removeDirectory cwd descriptors) cwd p d names s).2.fs.lookup x n = none :=
  (removeEntries_removes (removeDirectory_removes descriptors) p d names s).sub.lookup_none h

theorem loses_of_loop (descriptors : ℕ) (answers : List Answer) {y : ℕ} {m : String}
    (hd : fs.openDirectory cwd p = some d) (hnames : names.Perm (listing d fs))
    (h : (removeEntries (removeDirectory cwd descriptors) cwd p d names
      ⟨fs, answers⟩).2.fs.lookup y m = none) : Loses fs cwd p y m := by
  refine ⟨descriptors + 1, reads names :: answers, ?_⟩
  rw [removeDirectory_reads hd hnames]
  split_ifs
  · exact tryRemoval_lookup_none (fun _ _ => Sub.rmdir) h
  · exact h

/-- An entry that holds nothing can be taken away. -/
theorem loses_entry (hd : fs.openDirectory cwd p = some d) (hn : fs.lookup d n = some i)
    (hleaf : fs.kind i = .directory → fs.entries i = []) : Loses fs cwd p d n := by
  have hn' : fs.lookup d n ≠ none := by simp [hn]
  refine loses_of_loop 0 [granted, refused, granted] hd (first_perm hn') ?_
  rw [first, removeEntries_entry (remove_child hd hn hleaf)]
  exact removeEntries_lookup_none (by simp [lookup_erase])

theorem loses_nested {y : ℕ} {m : String} (hd : fs.openDirectory cwd p = some d)
    (hn : fs.lookup d n ≠ none) (hstat : fs.openDirectory cwd [.name n] ≠ none)
    (h : Loses fs cwd [.name n] y m) : Loses fs cwd p y m := by
  obtain ⟨descriptors, answers, h⟩ := h
  refine loses_of_loop descriptors (granted :: granted :: answers) hd (first_perm hn) ?_
  rw [first, removeEntries_nested hstat]
  split_ifs
  · exact removeEntries_lookup_none h
  · exact h

theorem Asked.loses {y : ℕ} {m : String} (hp : Asked fs cwd path p) (h : Loses fs cwd p y m) :
    Loses fs cwd path y m := by
  induction hp with
  | path => exact h
  | entry _ hd hn hstat ih => exact ih (loses_nested hd hn hstat h)

theorem Asked.opens (hp : Asked fs cwd path p) (h : fs.openDirectory cwd p ≠ none) :
    fs.openDirectory cwd path ≠ none := by
  induction hp with
  | path => exact h
  | entry _ hd _ _ ih => exact ih (by simp [hd])

/-- The path of an entry that a call takes away, if removals stay in the subtree. -/
theorem StaysInSubtree.of_loses (h : StaysInSubtree fs cwd path)
    (hopen : fs.openDirectory cwd path ≠ none) (hn : fs.lookup x n = some i)
    (hloses : Loses fs cwd path x n) : fs.AtOrBelow cwd path x n := by
  obtain ⟨descriptors, answers, hloses⟩ := hloses
  obtain ⟨d, hd⟩ := Option.ne_none_iff_exists'.mp hopen
  by_contra hnot
  have hstay := (h descriptors (granted :: answers)).outside x n hnot
  have hgone : (removeFile descriptors cwd path ⟨fs, granted :: answers⟩).2.fs.lookup x
    n = none := by
    have hpermitted : checkPermissions cwd path ⟨fs, granted :: answers⟩ =
      (true, ⟨fs, answers⟩) := by
      simp [checkPermissions, Process.ask, granted, resolve_of_openDirectory hd]
    rw [removeFile, hpermitted]
    dsimp only
    rw [if_pos rfl]
    split_ifs
    · exact hloses
    · exact tryRemoval_lookup_none (fun _ _ => Sub.remove) hloses
  rw [hgone, hn] at hstay
  cases hstay

/-- A hollow directory in the current directory can be taken away by its name. -/
theorem loses_hollow (hn : fs.lookup cwd n = some i) (hdir : fs.kind i = .directory)
    (hhollow : Hollow fs cwd path i) : Loses fs cwd [.name n] cwd n := by
  have he : fs.entryOf cwd [.name n] = some (cwd, n) := by
    rw [entryOf_name, if_pos (kind_of_lookup hn)]
  have hd : fs.openDirectory cwd [.name n] = some i :=
    openDirectory_of_resolve (resolve_of_entryOf he hn hdir) hdir
  have hrmdir : ∀ t : FileTree, t.Sub fs → t.lookup cwd n = some i → t.entries i = [] →
      t.rmdir cwd [.name n] = some (t.erase cwd n) := by
    intro t hsub hlookup hempty
    refine rmdir_eq_some.mpr ⟨cwd, n, i, ?_, hlookup, by rwa [hsub.kind], hempty, rfl⟩
    rw [entryOf_name, if_pos (kind_of_lookup hlookup)]
  by_cases hempty : fs.entries i = []
  · refine ⟨1, reads (listing i fs) :: refused :: [granted], ?_⟩
    rw [removeDirectory_reads hd (List.Perm.refl _), listing, removeEntries_refused, if_pos rfl,
      tryRemoval_granted (hrmdir fs (Sub.refl fs) hn hempty)]
    simp [lookup_erase]
  · obtain ⟨⟨m, j⟩, hm⟩ := List.exists_mem_of_ne_nil _ hempty
    have hm := lookup_eq_some.mpr hm
    obtain ⟨hname, hj⟩ := hhollow m j hm
    have hne : cwd ≠ i := fun h => lookup_self hdir (h ▸ hn)
    have hgone : (fs.erase i m).entries i = [] := by
      refine entries_eq_nil.mpr fun k => ?_
      rw [lookup_erase]
      split_ifs with hk
      · rfl
      · rw [Option.eq_none_iff_forall_ne_some]
        intro j' hk'
        have hsame := (hhollow k j' hk').1.symm.trans hname
        exact hk (by simpa using hsame)
    have hstill : (fs.erase i m).lookup cwd n = some i := by
      rw [lookup_erase_of_ne (.inl hne)]
      exact hn
    refine ⟨1, reads (first m i fs) :: granted :: refused :: granted :: refused :: [granted], ?_⟩
    rw [removeDirectory_reads hd (first_perm (by simp [hm])), first,
      removeEntries_entry (remove_child hd hm fun h => absurd h hj), listing,
      List.erase_cons_tail (by simp), removeEntries_refused, if_pos rfl,
      tryRemoval_granted (hrmdir _ (Sub.erase i m fs) hstill hgone)]
    simp [lookup_erase]

theorem StaysInSubtree.contained (h : StaysInSubtree fs cwd path) : Contained fs cwd path where
  entries p d n i hp hd hn hleaf :=
    h.of_loses (hp.opens (by simp [hd])) hn (hp.loses (loses_entry hd hn hleaf))
  names n i hp hn hdir hhollow := by
    have hloses := loses_hollow hn hdir hhollow
    have he : fs.entryOf cwd [.name n] = some (cwd, n) := by
      rw [entryOf_name, if_pos (kind_of_lookup hn)]
    have hd : fs.openDirectory cwd [.name n] = some i :=
      openDirectory_of_resolve (resolve_of_entryOf he hn hdir) hdir
    exact h.of_loses (hp.opens (by simp [hd])) hn (hp.loses hloses)

/-- A recursive removal stays in its subtree if and only if the entries that it can take away lie
there: those that hold nothing in the directories that it opens, and the hollow directories of the
current directory whose names it meets. -/
theorem staysInSubtree_iff (fs : FileTree) (cwd : ℕ) (path : Pathname) :
    StaysInSubtree fs cwd path ↔ Contained fs cwd path :=
  ⟨StaysInSubtree.contained, Contained.staysInSubtree⟩

/-- A directory `d` with an empty directory `s`, beside a directory `s` with a file. -/
def sameName : FileTree where
  root := 0
  kind i := if i = 4 then .other else .directory
  parent i := if i = 3 then 1 else 0
  entries
    | 0 => [("d", 1), ("s", 2)]
    | 1 => [("s", 3)]
    | 2 => [("f", 4)]
    | _ => []
  kind_eq := by rintro (_ | _ | _ | _ | d) <;> simp
  names_nodup := by rintro (_ | _ | _ | d) <;> simp
  parent_eq := by rintro (_ | _ | _ | d) <;> simp
  name_eq := by rintro (_ | _ | _ | d) <;> simp
  acyclic := ⟨id, by rintro (_ | _ | _ | d) <;> simp⟩

/-- The removal of `d` takes the other `s` away, and then fails. -/
theorem not_staysInSubtree_sameName : ¬ StaysInSubtree sameName 0 [.name "d"] := by
  intro h
  have hlost := (h 2 []).outside 2 "f" ?_
  · revert hlost
    decide +kernel
  · have hstat : sameName.lstat 0 [.name "d"] = some 1 := by decide +kernel
    rintro ((hname | ⟨i, hi, -, hlookup⟩) | ⟨i, hi, -, hbelow⟩)
    · revert hname
      decide +kernel
    · obtain rfl := Option.some.inj (hstat.symm.trans hi)
      revert hlookup
      decide +kernel
    · obtain rfl := Option.some.inj (hstat.symm.trans hi)
      rcases hbelow.cases_head with h | ⟨c, ⟨n, hn, -⟩, hbelow⟩
      · cases h
      · have hc : (n, c) ∈ [("s", 3)] := lookup_eq_some.mp hn
        obtain ⟨rfl, rfl⟩ := Prod.mk.inj (List.mem_singleton.mp hc)
        rcases hbelow.cases_head with h | ⟨c, ⟨n, hn, -⟩, -⟩
        · cases h
        · exact absurd (lookup_eq_some.mp hn) List.not_mem_nil

end Octf.Utils.fsutils
