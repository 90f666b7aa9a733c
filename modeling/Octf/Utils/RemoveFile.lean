import Octf.Foundation.FileTree

/-! The recursive removal of files. Any system call may be refused, and a directory is read in any
order. -/
namespace Octf.Utils.fsutils
open Foundation FileTree

/-- What decides a system call apart from the files: whether it is refused, in which order a
directory that it opens is read, and whether it passes over an entry that is gone. -/
structure Answer where
  denied : Bool
  order : List Component
  skips : Bool

structure Process where
  fs : FileTree
  answers : List Answer

/-- The next call and its answer. -/
def Process.ask (s : Process) : Answer × Process :=
  (s.answers.headD ⟨false, [], false⟩, { s with answers := s.answers.tail })

/-- A call that removes an entry. -/
def Process.tryRemoval (removal : FileTree → Option FileTree) (s : Process) : Bool × Process :=
  let (answer, s) := s.ask
  match if answer.denied then none else removal s.fs with
  | some fs => (true, { s with fs := fs })
  | none => (false, s)

/-- `access` with `W_OK`. -/
def checkPermissions (cwd : ℕ) (path : Pathname) (s : Process) : Bool × Process :=
  let (answer, s) := s.ask
  (decide (answer.denied = false ∧ s.fs.resolve cwd path ≠ none), s)

/-- The names in a directory, with those of itself and of its parent. -/
def listing (d : ℕ) (fs : FileTree) : List Component :=
  .current :: .parent :: (fs.entries d).map fun e => .name e.1

/-- The directory and the names that `readdir` will give. -/
def opendir (cwd : ℕ) (path : Pathname) (s : Process) : Option (ℕ × List Component) × Process :=
  let (answer, s) := s.ask
  let directory := if answer.denied then none else s.fs.openDirectory cwd path
  (directory.map fun d =>
    (d, if answer.order.Perm (listing d s.fs) then answer.order else listing d s.fs), s)

def isRealFile : Component → Bool
  | .name _ => true
  | _ => false

/-- `isType` for directories. `stat` looks the name up in the current directory. -/
def isType (cwd : ℕ) (entry : Component) (s : Process) : Bool × Process :=
  let (answer, s) := s.ask
  (decide (answer.denied = false ∧ s.fs.openDirectory cwd [entry] ≠ none), s)

/-- The loop over the names; `removeDirectory` is the call for a nested directory. -/
def removeEntries (removeDirectory : Pathname → Process → Bool × Process) (cwd : ℕ)
    (path : Pathname)
    (d : ℕ) : List Component → Process → Bool × Process
  | [], s => (true, s)
  | entry :: entries, s =>
    let (answer, s) := s.ask
    if answer.denied then (true, s)
    else if isRealFile entry = false ∨ answer.skips ∧ entry ∉ listing d s.fs then
      removeEntries removeDirectory cwd path d entries s
    else
      let (isDirectory, s) := isType cwd entry s
      let (removed, s) :=
        if isDirectory then removeDirectory [entry] s
        else s.tryRemoval (·.remove cwd (path ++ [entry]))
      if removed then removeEntries removeDirectory cwd path d entries s else (false, s)

/-- `removeDirectory`. It leaves each directory that it opens open, so the free descriptors bound
the depth of the recursion. -/
def removeDirectory (cwd : ℕ) : ℕ → Pathname → Process → Bool × Process
  | 0, _, s => (false, s)
  | descriptors + 1, path, s =>
    let (directory, s) := opendir cwd path s
    match directory with
    | none => (false, s)
    | some (d, entries) =>
      let (removed, s) := removeEntries (removeDirectory cwd descriptors) cwd path d entries s
      if removed then s.tryRemoval (·.rmdir cwd path) else (false, s)

def removeFile (descriptors cwd : ℕ) (path : Pathname) (s : Process) : Bool × Process :=
  let (permitted, s) := checkPermissions cwd path s
  if permitted then
    let (removed, s) := removeDirectory cwd descriptors path s
    if removed then (true, s) else s.tryRemoval (·.remove cwd path)
  else (false, s)

/-! ### Runs on the files alone -/

/-- A call of `removeDirectory`, or the rest of the loop in one. -/
inductive Task where
  | directory (path : Pathname)
  | entries (path : Pathname) (d : ℕ) (names : List Component)

/-- How a task can change the files, with its result. -/
inductive Removes (cwd : ℕ) : Task → FileTree → Bool → FileTree → Prop
  | closed {path : Pathname} {t : FileTree} : Removes cwd (.directory path) t false t
  | kept {path : Pathname} {d : ℕ} {names : List Component} {t t' : FileTree} {result : Bool} :
      t.openDirectory cwd path = some d → names.Perm (listing d t) →
        Removes cwd (.entries path d names) t result t' → Removes cwd (.directory path) t false t'
  | removed {path : Pathname} {d : ℕ} {names : List Component} {t t' t'' : FileTree} :
      t.openDirectory cwd path = some d → names.Perm (listing d t) →
        Removes cwd (.entries path d names) t true t' → t'.rmdir cwd path = some t'' →
          Removes cwd (.directory path) t true t''
  | stopped {path : Pathname} {d : ℕ} {names : List Component} {t : FileTree} {result : Bool} :
      Removes cwd (.entries path d names) t result t
  | passed {path : Pathname} {d : ℕ} {entry : Component} {names : List Component} {t t' : FileTree}
      {result : Bool} :
      Removes cwd (.entries path d names) t result t' →
        Removes cwd (.entries path d (entry :: names)) t result t'
  | nested {path : Pathname} {d : ℕ} {n : String} {names : List Component} {t t' t'' : FileTree}
      {result : Bool} :
      t.openDirectory cwd [.name n] ≠ none → Removes cwd (.directory [.name n]) t true t' →
        Removes cwd (.entries path d names) t' result t'' →
          Removes cwd (.entries path d (.name n :: names)) t result t''
  | nestedKept {path : Pathname} {d : ℕ} {n : String} {names : List Component} {t t' : FileTree} :
      t.openDirectory cwd [.name n] ≠ none → Removes cwd (.directory [.name n]) t false t' →
        Removes cwd (.entries path d (.name n :: names)) t false t'
  | entry {path : Pathname} {d : ℕ} {n : String} {names : List Component} {t t' t'' : FileTree}
      {result : Bool} :
      t.remove cwd (path ++ [.name n]) = some t' →
        Removes cwd (.entries path d names) t' result t'' →
          Removes cwd (.entries path d (.name n :: names)) t result t''

variable {cwd d : ℕ} {path : Pathname} {s : Process} {t t' : FileTree} {task : Task} {result : Bool}

@[simp] theorem ask_fs (s : Process) : s.ask.2.fs = s.fs := rfl

theorem tryRemoval_cases (removal : FileTree → Option FileTree) (s : Process) :
    (∃ fs, removal s.fs = some fs ∧ (s.tryRemoval removal).1 = true ∧
      (s.tryRemoval removal).2.fs = fs) ∨
    ((s.tryRemoval removal).1 = false ∧ (s.tryRemoval removal).2.fs = s.fs) := by
  unfold Process.tryRemoval
  by_cases hdenied : s.ask.1.denied
  · simp [hdenied]
  · cases h : removal s.fs with
    | none => simp [hdenied, h]
    | some fs => simp [hdenied, h]

theorem isRealFile_iff {entry : Component} : isRealFile entry = true ↔ ∃ n, entry = .name n := by
  cases entry <;> simp [isRealFile]

@[simp] theorem isType_fs (entry : Component) : (isType cwd entry s).2.fs = s.fs := rfl

theorem opendir_eq_some {names : List Component}
    (h : (opendir cwd path s).1 = some (d, names)) :
    s.fs.openDirectory cwd path = some d ∧ names.Perm (listing d s.fs) := by
  obtain ⟨d', hd, heq⟩ := Option.map_eq_some_iff.mp h
  rw [Prod.mk.injEq] at heq
  obtain ⟨rfl, rfl⟩ := heq
  split_ifs at hd with hdenied
  refine ⟨hd, ?_⟩
  split_ifs with horder
  · exact horder
  · exact List.Perm.refl _

theorem openDirectory_of_isType {entry : Component} (h : (isType cwd entry s).1 = true) :
    s.fs.openDirectory cwd [entry] ≠ none :=
  (of_decide_eq_true h).2

theorem removeEntries_removes {rec : Pathname → Process → Bool × Process}
    (hrec : ∀ path s, Removes cwd (.directory path) s.fs (rec path s).1 (rec path s).2.fs)
    (path : Pathname) (d : ℕ) (names : List Component) (s : Process) :
    Removes cwd (.entries path d names) s.fs (removeEntries rec cwd path d names s).1
      (removeEntries rec cwd path d names s).2.fs := by
  induction names generalizing s with
  | nil => exact .stopped
  | cons entry names ih =>
    rw [removeEntries]
    dsimp only
    split_ifs with hdenied hpassed hdirectory hremoved hremoved
    · exact .stopped
    · exact .passed (ih s.ask.2)
    all_goals
      obtain ⟨n, rfl⟩ := isRealFile_iff.mp (by simpa using fun h => hpassed (.inl h))
    · have hdir := openDirectory_of_isType hdirectory
      have hnested := hrec [.name n] (isType cwd (.name n) s.ask.2).2
      rw [hremoved] at hnested
      exact .nested hdir hnested (ih _)
    · have hdir := openDirectory_of_isType hdirectory
      have hnested := hrec [.name n] (isType cwd (.name n) s.ask.2).2
      rw [Bool.not_eq_true] at hremoved
      rw [hremoved] at hnested
      exact .nestedKept hdir hnested
    · rcases tryRemoval_cases (·.remove cwd (path ++ [.name n]))
        (isType cwd (.name n) s.ask.2).2 with
        ⟨fs, hfs, -, hentry⟩ | ⟨hkept, -⟩
      · exact .entry hfs (hentry ▸ ih _)
      · exact absurd hremoved (by simp [hkept])
    · rcases tryRemoval_cases (·.remove cwd (path ++ [.name n]))
        (isType cwd (.name n) s.ask.2).2 with
        ⟨fs, -, htrue, -⟩ | ⟨-, hentry⟩
      · exact absurd htrue hremoved
      · rw [hentry]
        exact .stopped

theorem removeDirectory_removes (descriptors : ℕ) (path : Pathname) (s : Process) :
    Removes cwd (.directory path) s.fs (removeDirectory cwd descriptors path s).1
      (removeDirectory cwd descriptors path s).2.fs := by
  induction descriptors generalizing path s with
  | zero => exact .closed
  | succ descriptors ih =>
    rw [removeDirectory]
    dsimp only
    cases hopen : (opendir cwd path s).1 with
    | none => exact .closed
    | some directory =>
      obtain ⟨d, names⟩ := directory
      obtain ⟨hd, hnames⟩ := opendir_eq_some hopen
      have hloop := removeEntries_removes ih path d names (opendir cwd path s).2
      dsimp only
      split_ifs with hremoved
      · rw [hremoved] at hloop
        rcases tryRemoval_cases (·.rmdir cwd path) (removeEntries (removeDirectory cwd descriptors)
          cwd path d names (opendir cwd path s).2).2 with ⟨fs, hfs, htrue, hfs'⟩ | ⟨hfalse, hfs'⟩
        · rw [htrue, hfs']
          exact .removed hd hnames hloop hfs
        · rw [hfalse, hfs']
          exact .kept hd hnames hloop
      · exact .kept hd hnames hloop

/-- `removeFile` ends with a run, or with the removal of the file at the path behind one. -/
theorem removeFile_cases (descriptors cwd : ℕ) (path : Pathname) (s : Process) :
    ((removeFile descriptors cwd path s).1 = false ∧
      (removeFile descriptors cwd path s).2.fs = s.fs) ∨
    ∃ result t, Removes cwd (.directory path) s.fs result t ∧
      (((removeFile descriptors cwd path s).1 = result ∧
          (removeFile descriptors cwd path s).2.fs = t) ∨
        t.remove cwd path = some (removeFile descriptors cwd path s).2.fs) := by
  unfold removeFile
  dsimp only
  split_ifs with hpermitted hremoved
  · have hrun : Removes cwd (.directory path) s.fs _ _ :=
      removeDirectory_removes descriptors path s.ask.2
    rw [show (removeDirectory cwd descriptors path s.ask.2).1 = true from hremoved] at hrun
    exact .inr ⟨_, _, hrun, .inl ⟨rfl, rfl⟩⟩
  · have hrun : Removes cwd (.directory path) s.fs _ _ :=
      removeDirectory_removes descriptors path s.ask.2
    rw [Bool.not_eq_true] at hremoved
    rw [show (removeDirectory cwd descriptors path s.ask.2).1 = false from hremoved] at hrun
    refine .inr ⟨_, _, hrun, ?_⟩
    rcases tryRemoval_cases (·.remove cwd path)
      (removeDirectory cwd descriptors path s.ask.2).2 with
      ⟨fs, hfs, -, hfs'⟩ | ⟨hfalse, hfs'⟩
    · exact .inr (hfs.trans (congrArg some hfs'.symm))
    · exact .inl ⟨hfalse, hfs'⟩
  · exact .inl ⟨rfl, rfl⟩

/-! ### What runs keep -/

theorem Removes.preserves {P : FileTree → Prop}
    (herase : ∀ (t : FileTree) x n i, P t → t.lookup x n = some i →
      (t.kind i = .directory → t.entries i = []) → P (t.erase x n))
    (h : Removes cwd task t result t') (hP : P t) : P t' := by
  induction h with
  | closed => exact hP
  | kept _ _ _ ih => exact ih hP
  | removed _ _ _ hrmdir ih =>
    obtain ⟨x, n, i, -, hi, -, hempty, rfl⟩ := rmdir_eq_some.mp hrmdir
    exact herase _ x n i (ih hP) hi fun _ => hempty
  | stopped => exact hP
  | passed _ ih => exact ih hP
  | nested _ _ _ ih ih' => exact ih' (ih hP)
  | nestedKept _ _ ih => exact ih hP
  | entry hremove _ ih =>
    obtain ⟨x, n, i, -, hi, hempty, -, rfl⟩ := remove_eq_some hremove
    exact ih (herase _ x n i hP hi hempty)

theorem Removes.sub (h : Removes cwd task t result t') : t'.Sub t :=
  h.preserves (P := fun t' => t'.Sub t)
    (fun t' x n _ ht' _ _ => (Sub.erase x n t').trans ht') (Sub.refl t)

end Octf.Utils.fsutils
