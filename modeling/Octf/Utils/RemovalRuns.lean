import Octf.Utils.RemoveFile

/-! What the runs of a recursive removal leave alone. -/
namespace Octf.Utils.fsutils
open Foundation FileTree

/-- The paths that `removeDirectory` can be called with. -/
inductive Asked (fs : FileTree) (cwd : ℕ) (path : Pathname) : Pathname → Prop
  | path : Asked fs cwd path path
  | entry {p : Pathname} {d : ℕ} {n : String} : Asked fs cwd path p →
      fs.openDirectory cwd p = some d → fs.lookup d n ≠ none →
        fs.openDirectory cwd [.name n] ≠ none → Asked fs cwd path [.name n]

/-- A directory holds nothing, or the entry at the path alone, which is that of no directory. -/
def Hollow (fs : FileTree) (cwd : ℕ) (path : Pathname) (i : ℕ) : Prop :=
  ∀ n j, fs.lookup i n = some j → fs.nameOf cwd path = some (i, n) ∧ fs.kind j ≠ .directory

/-- The entries of the directories that the removal opens are at or below the path, if they hold
nothing, and so are the hollow directories of the current directory whose names it meets. -/
structure Contained (fs : FileTree) (cwd : ℕ) (path : Pathname) : Prop where
  entries : ∀ p d n i, Asked fs cwd path p → fs.openDirectory cwd p = some d →
    fs.lookup d n = some i → (fs.kind i = .directory → fs.entries i = []) →
      fs.AtOrBelow cwd path d n
  names : ∀ n i, Asked fs cwd path [.name n] → fs.lookup cwd n = some i →
    fs.kind i = .directory → Hollow fs cwd path i → fs.AtOrBelow cwd path cwd n

variable {fs t t' : FileTree} {cwd d i x : ℕ} {path p : Pathname} {n : String} {task : Task}
  {names : List Component} {result : Bool}

/-! ### A directory with something in it -/

/-- A loop over a directory has its names still to come, and any other directory is not empty. -/
def Task.Alive (cwd i : ℕ) (t : FileTree) : Task → Prop
  | .directory p => t.openDirectory cwd p = some i ∨ ∃ m, t.lookup i m ≠ none
  | .entries _ d names => (d = i → ∀ m, .name m ∈ names → t.lookup i m ≠ none) ∧
      (d ≠ i → ∃ m, t.lookup i m ≠ none)

theorem nodup_of_perm (h : names.Perm (listing d t)) : names.Nodup := by
  rw [h.nodup_iff, listing]
  have hnames : ((t.entries d).map fun e => Component.name e.1).Nodup := by
    have hmap := (t.names_nodup d).map (f := Component.name) fun a b hab => by simpa using hab
    simpa [Function.comp_def] using hmap
  simpa using hnames

theorem lookup_of_perm {m : String} (h : names.Perm (listing d t)) (hm : .name m ∈ names) :
    t.lookup d m ≠ none := by
  have hmem := h.mem_iff.mp hm
  simp only [listing, List.mem_cons, reduceCtorEq, List.mem_map, Component.name.injEq,
    false_or] at hmem
  obtain ⟨e, he, rfl⟩ := hmem
  have hsome := lookup_eq_some.mpr he
  simp [hsome]

theorem Task.Alive.loop (h : Task.Alive cwd i t (.directory p))
    (hd : t.openDirectory cwd p = some d)
    (hnames : names.Perm (listing d t)) : Task.Alive cwd i t (.entries p d names) := by
  refine ⟨?_, fun hne => ?_⟩
  · rintro rfl m hm
    exact lookup_of_perm hnames hm
  · rcases h with h | h
    · exact absurd (Option.some.inj (hd.symm.trans h)) hne
    · exact h

theorem Task.Alive.exists (h : Task.Alive cwd i t (.entries p d (.name n :: names))) :
    ∃ m, t.lookup i m ≠ none := by
  by_cases hd : d = i
  · exact ⟨n, h.1 hd n List.mem_cons_self⟩
  · exact h.2 hd

theorem Task.Alive.tail {entry : Component} (h : Task.Alive cwd i t (.entries p d (entry :: names)))
    (hsame : ∀ m, t'.lookup i m = t.lookup i m) : Task.Alive cwd i t' (.entries p d names) := by
  simp only [Task.Alive, hsame]
  exact ⟨fun hd m hm => h.1 hd m (List.mem_cons_of_mem _ hm), h.2⟩

theorem Task.Alive.erase (h : Task.Alive cwd i t (.entries p d (.name n :: names)))
    (hnodup : (.name n :: names).Nodup) : Task.Alive cwd i (t.erase d n) (.entries p d names) := by
  refine ⟨?_, fun hne => ?_⟩
  · rintro rfl m hm
    have hmn : m ≠ n := by
      rintro rfl
      exact (List.nodup_cons.mp hnodup).1 hm
    rw [lookup_erase_of_ne (.inr hmn)]
    exact h.1 rfl m (List.mem_cons_of_mem _ hm)
  · obtain ⟨m, hm⟩ := h.2 hne
    refine ⟨m, ?_⟩
    rwa [lookup_erase_of_ne (.inl hne.symm)]

/-- A task that can be nested in another, as the files were at first. -/
def Task.Nested (fs : FileTree) (cwd : ℕ) : Task → Prop
  | .directory p => ∃ m, p = [.name m]
  | .entries p d names => fs.openDirectory cwd p = some d ∧ names.Nodup

/-- A loop over a directory changes it. -/
def Task.Spares (i : ℕ) : Task → Prop
  | .directory _ => True
  | .entries _ d _ => d ≠ i

/-- A directory that is not empty and not in the current directory cannot be removed by a nested
task. Only loops over the directory change it, and they fail. -/
theorem Removes.spares (hi : fs.lookup x n = some i) (hdir : fs.kind i = .directory) (hx : cwd ≠ x)
    (hne : cwd ≠ i) (h : Removes cwd task t result t') :
    t.Sub fs → task.Nested fs cwd → task.Alive cwd i t →
      (t.lookup x n = some i → t'.lookup x n = some i) ∧
        (result = true → task.Spares i → ∀ m, t'.lookup i m = t.lookup i m) := by
  induction h with
  | closed => exact fun _ _ _ => ⟨id, fun h => by simp at h⟩
  | kept hd hnames _ ih =>
    intro hsub _ halive
    obtain ⟨hkeep, -⟩ := ih hsub ⟨hsub.openDirectory hd, nodup_of_perm hnames⟩
      (halive.loop hd hnames)
    exact ⟨hkeep, fun h => by simp at h⟩
  | @removed p d names t t' t'' hd hnames hloop hrmdir ih =>
    rintro hsub ⟨m, rfl⟩ halive
    obtain ⟨hkeep, hsame⟩ := ih hsub ⟨hsub.openDirectory hd, nodup_of_perm hnames⟩
      (halive.loop hd hnames)
    obtain ⟨k, hk, hkdir, -, rfl⟩ := rmdir_name_eq_some hrmdir
    have hother : d ≠ i := by
      rintro rfl
      obtain ⟨-, j, hj, hjd⟩ := openDirectory_name hd
      obtain rfl := Option.some.inj (hj.symm.trans (hloop.sub.lookup _ _ _ hk))
      obtain rfl := hjd (by rwa [← hloop.sub.kind])
      exact hx (lookup_unique (hsub.lookup _ _ _ hj) hi hdir).1
    refine ⟨fun hlookup => ?_, fun _ _ m' => ?_⟩
    · rw [lookup_erase_of_ne (.inl hx.symm)]
      exact hkeep hlookup
    · rw [lookup_erase_of_ne (.inl hne.symm)]
      exact hsame rfl hother m'
  | stopped => exact fun _ _ _ => ⟨id, fun _ _ _ => rfl⟩
  | passed _ ih =>
    rintro hsub ⟨hd, hnodup⟩ halive
    exact ih hsub ⟨hd, (List.nodup_cons.mp hnodup).2⟩ (halive.tail fun _ => rfl)
  | nested _ hnested _ ih ih' =>
    rintro hsub ⟨hd, hnodup⟩ halive
    obtain ⟨hkeep, hsame⟩ := ih hsub ⟨_, rfl⟩ (.inr halive.exists)
    obtain ⟨hkeep', hsame'⟩ := ih' (hnested.sub.trans hsub) ⟨hd, (List.nodup_cons.mp hnodup).2⟩
      (halive.tail (hsame rfl trivial))
    exact ⟨hkeep' ∘ hkeep, fun h hspares m => (hsame' h hspares m).trans (hsame rfl trivial m)⟩
  | nestedKept _ _ ih =>
    rintro hsub - halive
    exact ⟨(ih hsub ⟨_, rfl⟩ (.inr halive.exists)).1, fun h => by simp at h⟩
  | @entry p d m names t t' t'' result hremove _ ih =>
    rintro hsub ⟨hd, hnodup⟩ halive
    obtain ⟨d', k, hd', hk, hempty, rfl⟩ := remove_child_eq_some (ne_of_openDirectory hd) hremove
    obtain rfl := Option.some.inj ((hsub.openDirectory hd').symm.trans hd)
    obtain ⟨hkeep, hsame⟩ := ih ((Sub.erase _ _ _).trans hsub) ⟨hd, (List.nodup_cons.mp hnodup).2⟩
      (halive.erase hnodup)
    refine ⟨fun hlookup => hkeep ?_, fun h hspares m' => ?_⟩
    · rw [lookup_erase, if_neg ?_]
      · exact hlookup
      · rintro ⟨rfl, rfl⟩
        -- what is removed is not empty
        obtain rfl := Option.some.inj (hlookup.symm.trans hk)
        obtain ⟨m', hm'⟩ := halive.2 fun hself => lookup_self hdir (hself ▸ hi)
        exact hm' (entries_eq_nil.mp (hempty (by rwa [hsub.kind])) m')
    · rw [hsame h hspares m', lookup_erase_of_ne (.inl (Ne.symm hspares))]

/-! ### What a run leaves alone -/

/-- The entry at the path is the only one in its directory. -/
structure Sole (fs : FileTree) (cwd : ℕ) (path : Pathname) (x : ℕ) (n : String) (i : ℕ) : Prop where
  lookup : fs.lookup x n = some i
  own : fs.At cwd path x n
  only : ∀ m j, fs.lookup x m = some j → m = n

def Kept (fs : FileTree) (cwd : ℕ) (path : Pathname) (t : FileTree) : Prop :=
  ∀ x n, ¬ fs.AtOrBelow cwd path x n → t.lookup x n = fs.lookup x n

theorem Kept.erase (h : Kept fs cwd path t) (hx : fs.AtOrBelow cwd path x n) :
    Kept fs cwd path (t.erase x n) := by
  intro y m hy
  rw [lookup_erase, if_neg ?_]
  · exact h y m hy
  · rintro ⟨rfl, rfl⟩
    exact hy hx

/-- A directory elsewhere that has become empty held the entry at the path alone. -/
theorem Kept.sole {m : String} {j : ℕ} (h : Kept fs cwd path t) (hempty : t.entries i = [])
    (hx : fs.lookup x n = some i) (hdir : fs.kind i = .directory)
    (hnot : ¬ fs.AtOrBelow cwd path x n) (hm : fs.lookup i m = some j) :
    Sole fs cwd path i m j := by
  have hown : ∀ k j, fs.lookup i k = some j → fs.At cwd path i k := by
    intro k j hk
    by_contra hat
    have hbelow : fs.AtOrBelow cwd path i k := by
      by_contra hbelow
      have hgone := entries_eq_nil.mp hempty k
      rw [h i k hbelow, hk] at hgone
      cases hgone
    exact hnot (hbelow.of_entry hat hx hdir)
  exact ⟨hm, hown m j hm, fun k j' hk => ((hown k j' hk).unique (hown m j hm)).2⟩

/-- As long as its directory is in its place, the only entry of the directory is too. -/
def Settled (fs : FileTree) (cwd : ℕ) (path : Pathname) (homes : ℕ → Prop) (t : FileTree) : Prop :=
  ∀ x n i, Sole fs cwd path x n i → x ≠ cwd → homes x → (∃ y m, t.lookup y m = some x) →
    t.lookup x n ≠ none

/-- A loop over the directory removes the entry last. -/
def Task.Before : Task → ℕ → Prop
  | .directory _, _ => True
  | .entries _ d names, x => x = d → ∃ m, .name m ∈ names

def Task.After : Task → ℕ → Prop
  | .directory p, _ => ∃ m, p = [.name m]
  | .entries _ d _, x => x ≠ d

def Task.Fits (fs : FileTree) (cwd : ℕ) (path : Pathname) : Task → Prop
  | .directory p => Asked fs cwd path p
  | .entries p d names => Asked fs cwd path p ∧ fs.openDirectory cwd p = some d ∧ names.Nodup ∧
      ∀ m, .name m ∈ names → fs.lookup d m ≠ none

/-- What holds of the files when a task begins. -/
structure Task.Ready (fs : FileTree) (cwd : ℕ) (path : Pathname) (task : Task) (t : FileTree) :
    Prop where
  sub : t.Sub fs
  kept : Kept fs cwd path t
  fits : task.Fits fs cwd path
  settled : Settled fs cwd path task.Before t
  alive : ∀ x n i, fs.At cwd path x n → fs.kind i = .directory → cwd ≠ x → cwd ≠ i →
    t.lookup x n = some i → task.Alive cwd i t

/-- The entry that is removed in a loop is at or below the path. -/
theorem Contained.of_entry (hc : Contained fs cwd path)
    (hready : Task.Ready fs cwd path (.entries p d (.name n :: names)) t)
    (hd : t.openDirectory cwd p = some d) (hn : t.lookup d n = some i)
    (hempty : fs.kind i = .directory → t.entries i = []) : fs.AtOrBelow cwd path d n := by
  obtain ⟨hasked, hopen, -, -⟩ := hready.fits
  have hn' := hready.sub.lookup _ _ _ hn
  by_contra hnot
  by_cases hleaf : fs.kind i = .directory → fs.entries i = []
  · exact hnot (hc.entries p d n i hasked hopen hn' hleaf)
  · obtain ⟨hdir, hnonempty⟩ := Classical.not_imp.mp hleaf
    have hgone := entries_eq_nil.mp (hempty hdir)
    obtain ⟨⟨m, j⟩, hm⟩ := List.exists_mem_of_ne_nil _ hnonempty
    have hsole := hready.kept.sole (hempty hdir) hn' hdir hnot (lookup_eq_some.mpr hm)
    by_cases hi : i = cwd
    · subst hi
      cases hasked with
      | path =>
        by_cases hj : fs.kind j = .directory
        · have hpath := openDirectory_of_lstat (hsole.own.lstat hsole.lookup) hj
          obtain rfl := Option.some.inj (hpath.symm.trans hopen)
          exact lookup_asymm hsole.lookup hj hn'
        · exact hready.sub.lookup_of_resolve (hsole.own.nameOf hsole.lookup hj)
            (resolve_of_openDirectory hd) (hgone m)
      | entry =>
        obtain ⟨-, k, hk, -⟩ := openDirectory_name hd
        rw [hgone] at hk
        cases hk
    · refine hready.settled i m j hsole hi ?_ ⟨d, n, hn⟩ (hgone m)
      rintro rfl
      exact absurd hn' (lookup_self hdir)

/-- The directory that is removed behind a loop is at or below the path. -/
theorem Contained.of_rmdir {t'' : FileTree} (hc : Contained fs cwd path)
    (hready : Task.Ready fs cwd path (.directory p) t) (hd : t.openDirectory cwd p = some d)
    (hnames : names.Perm (listing d t)) (hloop : Removes cwd (.entries p d names) t true t')
    (hkept : Kept fs cwd path t') (hrmdir : t'.rmdir cwd p = some t'') :
    ∃ x m, t'.lookup x m = some d ∧ fs.AtOrBelow cwd path x m ∧ t'' = t'.erase x m ∧
      (∀ k, p = [.name k] → x = cwd) := by
  obtain ⟨x, m, k, he, hk, hdir, hempty, rfl⟩ := rmdir_eq_some.mp hrmdir
  have hopen := openDirectory_of_resolve (resolve_of_entryOf he hk hdir) hdir
  obtain rfl := Option.some.inj ((hloop.sub.openDirectory hopen).symm.trans hd)
  have hsub := hloop.sub.trans hready.sub
  rw [hsub.kind] at hdir
  have hx := hsub.lookup _ _ _ hk
  have hcwd : ∀ a, p = [.name a] → x = cwd ∧ m = a := by
    rintro a rfl
    rw [entryOf_name] at he
    split_ifs at he
    cases he
    exact ⟨rfl, rfl⟩
  refine ⟨x, m, hk, ?_, rfl, fun a ha => (hcwd a ha).1⟩
  have hasked : Asked fs cwd path p := hready.fits
  cases hasked with
  | path => exact .inl (At.of_entryOf (hsub.entryOf he) hx hdir)
  | @entry _ _ a hq hopen' ha hstat =>
    obtain ⟨rfl, rfl⟩ := hcwd a rfl
    by_contra hnot
    refine hnot (hc.names m k (.entry hq hopen' ha hstat) hx hdir fun n j hn => ?_)
    have hsole := hkept.sole hempty hx hdir hnot hn
    -- a directory in it would still be there
    have hj : fs.kind j ≠ .directory := by
      intro hj
      have hne : k ≠ j := fun h => lookup_self hj (h ▸ hn)
      have hcwd : x ≠ k := fun h => lookup_self hdir (h ▸ hx)
      have hback : x ≠ j := by
        rintro rfl
        exact lookup_asymm hx hdir hn
      have hpresent : t.lookup k n = some j := by
        have hsettled := hready.settled k n j hsole hcwd.symm trivial
          ⟨x, m, hloop.sub.lookup _ _ _ hk⟩
        obtain ⟨j', hj'⟩ := Option.ne_none_iff_exists'.mp hsettled
        rw [hj', ← hready.sub.lookup _ _ _ hj', hn]
      have halive := (hready.alive k n j hsole.own hj hcwd hback hpresent).loop hd hnames
      have hkeep := (hloop.spares hn hj hcwd hback hready.sub
        ⟨hready.sub.openDirectory hd, nodup_of_perm hnames⟩ halive).1 hpresent
      rw [entries_eq_nil.mp hempty n] at hkeep
      cases hkeep
    exact ⟨hsole.own.nameOf hn hj, hj⟩

theorem Settled.mono {homes homes' : ℕ → Prop} (h : Settled fs cwd path homes t)
    (himp : ∀ x, homes' x → homes x) : Settled fs cwd path homes' t :=
  fun x n i hsole hx hhome => h x n i hsole hx (himp x hhome)

theorem Task.Ready.loop (h : Task.Ready fs cwd path (.directory p) t)
    (hd : t.openDirectory cwd p = some d) (hnames : names.Perm (listing d t)) :
    Task.Ready fs cwd path (.entries p d names) t where
  sub := h.sub
  kept := h.kept
  fits := by
    refine ⟨h.fits, h.sub.openDirectory hd, nodup_of_perm hnames, fun m hm => ?_⟩
    obtain ⟨i, hi⟩ := Option.ne_none_iff_exists'.mp (lookup_of_perm hnames hm)
    simp [h.sub.lookup _ _ _ hi]
  settled := h.settled.mono fun _ _ => trivial
  alive x n i hat hdir hx hne hn := (h.alive x n i hat hdir hx hne hn).loop hd hnames

/-- The call for a nested directory. -/
theorem Task.Ready.nested (h : Task.Ready fs cwd path (.entries p d (.name n :: names)) t)
    (hdir : t.openDirectory cwd [.name n] ≠ none) :
    Task.Ready fs cwd path (.directory [.name n]) t where
  sub := h.sub
  kept := h.kept
  fits := by
    obtain ⟨hasked, hopen, -, hreal⟩ := h.fits
    obtain ⟨i, hi⟩ := Option.ne_none_iff_exists'.mp hdir
    exact .entry hasked hopen (hreal n List.mem_cons_self) (by simp [h.sub.openDirectory hi])
  settled := h.settled.mono fun _ _ _ => ⟨n, List.mem_cons_self⟩
  alive x m i hat hdir hx hne hm := .inr (h.alive x m i hat hdir hx hne hm).exists

/-- The rest of a loop. -/
theorem Task.Ready.tail {entry : Component}
    (h : Task.Ready fs cwd path (.entries p d (entry :: names)) t) (hsub : t'.Sub t)
    (hkept : Kept fs cwd path t')
    (hsettled : Settled fs cwd path (Task.Before (.entries p d names)) t')
    (halive : ∀ x n i, fs.lookup x n = some i → fs.kind i = .directory → cwd ≠ x → cwd ≠ i →
      Task.Alive cwd i t (.entries p d (entry :: names)) →
        Task.Alive cwd i t' (.entries p d names)) :
    Task.Ready fs cwd path (.entries p d names) t' where
  sub := hsub.trans h.sub
  kept := hkept
  fits := by
    obtain ⟨hasked, hopen, hnodup, hreal⟩ := h.fits
    exact ⟨hasked, hopen, (List.nodup_cons.mp hnodup).2,
      fun m hm => hreal m (List.mem_cons_of_mem _ hm)⟩
  settled := hsettled
  alive x n i hat hdir hx hne hn := halive x n i (h.sub.lookup _ _ _ (hsub.lookup _ _ _ hn)) hdir hx
    hne (h.alive x n i hat hdir hx hne (hsub.lookup _ _ _ hn))

theorem Task.Ready.passed {entry : Component}
    (h : Task.Ready fs cwd path (.entries p d (entry :: names)) t) :
    Task.Ready fs cwd path (.entries p d names) t := by
  refine h.tail (Sub.refl t) h.kept (h.settled.mono fun x hx hxd => ?_)
    fun _ _ _ _ _ _ _ halive => halive.tail fun _ => rfl
  obtain ⟨m, hm⟩ := hx hxd
  exact ⟨m, List.mem_cons_of_mem _ hm⟩

theorem Task.Ready.erase (h : Task.Ready fs cwd path (.entries p d (.name n :: names)) t)
    (hn : t.lookup d n = some i) (hbelow : fs.AtOrBelow cwd path d n) :
    Task.Ready fs cwd path (.entries p d names) (t.erase d n) := by
  obtain ⟨-, -, hnodup, hreal⟩ := h.fits
  refine h.tail (Sub.erase d n t) (h.kept.erase hbelow) ?_
    fun _ _ _ _ _ _ _ halive => halive.erase hnodup
  rintro x m j hsole hx hhome ⟨y, k, hy⟩
  have hpresent : t.lookup x m ≠ none :=
    h.settled x m j hsole hx (fun _ => ⟨n, List.mem_cons_self⟩)
      ⟨y, k, (Sub.erase d n t).lookup _ _ _ hy⟩
  rw [lookup_erase, if_neg ?_]
  · exact hpresent
  · rintro ⟨rfl, rfl⟩
    -- the names that follow would be the same
    obtain ⟨a, ha⟩ := hhome rfl
    obtain ⟨b, hb⟩ := Option.ne_none_iff_exists'.mp (hreal a (List.mem_cons_of_mem _ ha))
    obtain rfl := hsole.only a b hb
    exact (List.nodup_cons.mp hnodup).1 ha

/-- A run takes nothing away that is not at or below the path. -/
theorem Removes.kept_of_contained (hc : Contained fs cwd path) (h : Removes cwd task t result t') :
    Task.Ready fs cwd path task t → Kept fs cwd path t' ∧
      (result = true → Settled fs cwd path task.After t') := by
  induction h with
  | closed => exact fun hready => ⟨hready.kept, fun h => by simp at h⟩
  | kept hd hnames _ ih =>
    exact fun hready => ⟨(ih (hready.loop hd hnames)).1, fun h => by simp at h⟩
  | @removed p d names t t' t'' hd hnames hloop hrmdir ih =>
    intro hready
    obtain ⟨hkept, hsettled⟩ := ih (hready.loop hd hnames)
    obtain ⟨x, m, hx, hbelow, rfl, hcwd⟩ := hc.of_rmdir hready hd hnames hloop hkept hrmdir
    refine ⟨hkept.erase hbelow, ?_⟩
    rintro - y k j hsole hy ⟨a, ha⟩ ⟨z, b, hz⟩
    obtain rfl := hcwd a ha
    have hz' := (Sub.erase x m t').lookup _ _ _ hz
    have hother : y ≠ d := by
      rintro rfl
      -- the only place of the directory is gone
      have hdir : t'.kind y = .directory := by
        rw [hloop.sub.kind]
        exact kind_of_openDirectory hd
      obtain ⟨rfl, rfl⟩ := lookup_unique hx hz' hdir
      simp [lookup_erase] at hz
    rw [lookup_erase_of_ne (.inl hy)]
    exact hsettled rfl y k j hsole hy hother ⟨z, b, hz'⟩
  | stopped =>
    exact fun hready => ⟨hready.kept, fun _ => hready.settled.mono fun x hx hxd => absurd hxd hx⟩
  | passed _ ih => exact fun hready => ih hready.passed
  | nested hdir hnested _ ih ih' =>
    intro hready
    obtain ⟨hkept, hsettled⟩ := ih (hready.nested hdir)
    refine ih' (hready.tail hnested.sub hkept ((hsettled rfl).mono fun _ _ => ⟨_, rfl⟩) ?_)
    intro x m i hm hdir hx hne halive
    exact halive.tail
      ((hnested.spares hm hdir hx hne hready.sub ⟨_, rfl⟩ (.inr halive.exists)).2 rfl trivial)
  | nestedKept hdir hnested ih =>
    exact fun hready => ⟨(ih (hready.nested hdir)).1, fun h => by simp at h⟩
  | entry hremove _ ih =>
    intro hready
    have hopen := hready.fits.2.1
    obtain ⟨d', k, hd, hk, hempty, rfl⟩ := remove_child_eq_some (ne_of_openDirectory hopen) hremove
    obtain rfl := Option.some.inj ((hready.sub.openDirectory hd).symm.trans hopen)
    rw [hready.sub.kind] at hempty
    exact ih (hready.erase hk (hc.of_entry hready hd hk hempty))

end Octf.Utils.fsutils
