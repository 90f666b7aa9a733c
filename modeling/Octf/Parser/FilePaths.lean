import Octf.Foundation.WeightedWalk
import Octf.Parser.FilesystemTree

/-! The paths of files in any tree of file records. The walk to the root ends unless it comes,
within the longest path, to records without names that are among their own ancestors. -/
namespace Octf.Parser.v2
open Foundation

/-- Names joined by slashes. Behind a path that is empty or ends with a slash there need be none. -/
inductive Joined : List (List Char) → List Char → Prop
  | root (name : List Char) : Joined [name] name
  | slash {names : List (List Char)} {path : List Char} (name : List Char)
    (hpath : path ≠ [] ∧ path ≠ ['/']) (h : Joined names path) :
    Joined (names ++ [name]) (path ++ '/' :: name)
  | close {names : List (List Char)} {path : List Char} (name : List Char)
    (hpath : path = [] ∨ path.getLast? = some '/') (h : Joined names path) :
    Joined (names ++ [name]) (path ++ name)

/-- The directory that `getDirPath` takes from a path. -/
def Path.dir : Path → List Char
  | .found path => path
  | _ => []

namespace FileSystemViewer

/-- The names along the parents of a file, from a root down to the file. -/
inductive Ancestry (viewer : FileSystemViewer) : FileKey → List (List Char) → Prop
  | root {id : FileKey} {info : FileInfo} (hfind : viewer.find id true = some info)
    (hroot : id = info.parent ∨ info.name = ['/']) : Ancestry viewer id [info.name]
  | child {id : FileKey} {info : FileInfo} {names : List (List Char)}
    (hfind : viewer.find id true = some info) (hparent : Ancestry viewer info.parent names) :
    Ancestry viewer id (names ++ [info.name])

/-- The step of `getPath` to the parent, and the length that it adds. -/
def upward (viewer : FileSystemViewer) (id : FileKey) : Option (ℕ × FileKey) :=
  match viewer.find id true with
  | none => none
  | some info =>
    if id ≠ info.parent ∧ info.name ≠ ['/'] then some (byteLength info.name, info.parent) else none

/-- The paths of a file are computed, and are those of its ancestry. -/
structure PathsFollow (viewer : FileSystemViewer) (id : FileKey) : Prop where
  dirReturns : ∃ depth dir, viewer.getDirPath depth id = some dir
  fileReturns : ∃ depth path, viewer.getFilePath depth id = some path
  dir : ∀ depth dir, viewer.getDirPath depth id = some dir → dir = [] ∨
    ∃ info names, viewer.find id true = some info ∧ viewer.Ancestry info.parent names ∧
      Joined names dir
  file : ∀ depth path, viewer.getFilePath depth id = some path → path = [] ∨
    ∃ names, viewer.Ancestry id names ∧ Joined names path

variable {viewer : FileSystemViewer} {id : FileKey} {info : FileInfo} {depth len : ℕ}

/-- A fold that keeps what it has or takes the next one ends with one of the list. -/
theorem mem_of_foldl {α : Type*} {pick : Option α → α → Option α}
    (hpick : ∀ last e, pick last e = last ∨ pick last e = some e) {es : List α} {last : Option α}
    {e : α} (h : es.foldl pick last = some e) : last = some e ∨ e ∈ es := by
  induction es generalizing last with
  | nil => exact Or.inl h
  | cons e' es ih =>
    rcases ih h with hhead | hmem
    · rcases hpick last e' with heq | heq
      · exact Or.inl (heq.symm.trans hhead)
      · obtain rfl := Option.some.inj (heq.symm.trans hhead)
        exact Or.inr List.mem_cons_self
    · exact Or.inr (List.mem_cons_of_mem e' hmem)

theorem mem_prev {e : FileKey × FileInfo} (h : viewer.prev id = some e) : e ∈ viewer.fileInfo := by
  have hmem := mem_of_foldl (fun last e => ?_) h
  · rcases hmem with hnone | hmem
    · cases hnone
    · exact List.mem_of_mem_filter hmem
  · cases last with
    | none => exact Or.inr rfl
    | some l =>
      simp only
      split_ifs
      · exact Or.inr rfl
      · exact Or.inl rfl

/-- What is found is a record of the viewer. -/
theorem mem_of_find {week : Bool} (h : viewer.find id week = some info) :
    ∃ key, (key, info) ∈ viewer.fileInfo := by
  unfold find at h
  cases hvalue : valueAt id viewer.fileInfo with
  | some found =>
    rw [hvalue] at h
    obtain rfl := Option.some.inj h
    exact ⟨id, mem_of_valueAt hvalue⟩
  | none =>
    rw [hvalue] at h
    cases week with
    | false => cases h
    | true =>
      cases hprev : viewer.prev id with
      | none => simp [hprev] at h
      | some e =>
        simp only [hprev, if_true] at h
        split_ifs at h
        obtain rfl := Option.some.inj h
        exact ⟨e.1, mem_prev hprev⟩

theorem upward_of_missing (h : viewer.find id true = none) : viewer.upward id = none := by
  unfold upward
  rw [h]

theorem upward_of_found (h : viewer.find id true = some info) :
    viewer.upward id = if id ≠ info.parent ∧ info.name ≠ ['/'] then
      some (byteLength info.name, info.parent) else none := by
  unfold upward
  rw [h]

/-- There are no more parents than records. -/
theorem finite_upward (viewer : FileSystemViewer) :
    {parent | ∃ id len, viewer.upward id = some (len, parent)}.Finite := by
  refine (viewer.fileInfo.map fun e => e.2.parent).finite_toSet.subset ?_
  rintro parent ⟨id, len, hup⟩
  cases hfind : viewer.find id true with
  | none =>
    rw [upward_of_missing hfind] at hup
    cases hup
  | some info =>
    rw [upward_of_found hfind] at hup
    split_ifs at hup
    obtain ⟨-, rfl⟩ := Prod.mk.inj (Option.some.inj hup)
    obtain ⟨key, hmem⟩ := mem_of_find hfind
    exact List.mem_map.mpr ⟨(key, info), hmem, rfl⟩

/-- The depth does not suffice as long as the walk goes on within the longest path. -/
theorem getPath_eq_none_iff (hlen : len ≤ PATH_MAX) :
    viewer.getPath depth id len = none ↔
      ∃ w top, len + w ≤ PATH_MAX ∧ Walk viewer.upward depth id w top := by
  induction depth generalizing id len with
  | zero => exact ⟨fun _ => ⟨0, id, hlen, .nil id⟩, fun _ => rfl⟩
  | succ depth ih =>
    unfold getPath
    cases hfind : viewer.find id true with
    | none =>
      refine ⟨fun h => (by cases h), ?_⟩
      rintro ⟨w, top, -, hwalk⟩
      cases hwalk with
      | cons hnext _ => rw [upward_of_missing hfind] at hnext; cases hnext
    | some info =>
      have hup := upward_of_found hfind
      simp only
      split_ifs with hexceeded hinner
      · refine ⟨fun h => (by cases h), ?_⟩
        rintro ⟨w, top, hbound, hwalk⟩
        cases hwalk with
        | cons hnext _ =>
          rw [hup] at hnext
          split_ifs at hnext
          obtain ⟨rfl, -⟩ := Prod.mk.inj (Option.some.inj hnext)
          omega
      · rw [if_pos hinner] at hup
        rw [Option.map_eq_none_iff, ih (not_lt.mp hexceeded)]
        constructor
        · rintro ⟨w, top, hbound, hwalk⟩
          exact ⟨_, top, by omega, .cons hup hwalk⟩
        · rintro ⟨w, top, hbound, hwalk⟩
          cases hwalk with
          | cons hnext hwalk =>
            obtain ⟨rfl, rfl⟩ := Prod.mk.inj (Option.some.inj (hup.symm.trans hnext))
            exact ⟨_, top, by omega, hwalk⟩
      · rw [if_neg hinner] at hup
        refine ⟨fun h => (by cases h), ?_⟩
        rintro ⟨w, top, -, hwalk⟩
        cases hwalk with
        | cons hnext _ => rw [hup] at hnext; cases hnext

theorem getPath_eq_none_iff_trapped :
    (∀ depth, viewer.getPath depth id 0 = none) ↔ Trapped viewer.upward PATH_MAX id := by
  rw [trapped_iff viewer.finite_upward]
  refine forall_congr' fun depth => ?_
  rw [getPath_eq_none_iff (Nat.zero_le _)]
  simp only [Nat.zero_add]

/-- A path is that of the names from a root. -/
theorem getPath_found {path : List Char} (h : viewer.getPath depth id len = some (.found path)) :
    ∃ names, viewer.Ancestry id names ∧ Joined names path := by
  induction depth generalizing id len path with
  | zero => cases h
  | succ depth ih =>
    unfold getPath at h
    cases hfind : viewer.find id true with
    | none => simp [hfind] at h
    | some info =>
      simp only [hfind] at h
      split_ifs at h with hexceeded hinner
      · cases h
      · obtain ⟨result, hresult, hmap⟩ := Option.map_eq_some_iff.mp h
        cases result with
        | exceeded => cases hmap
        | missing => cases hmap
        | found above =>
          obtain ⟨names, hancestry, hjoined⟩ := ih hresult
          refine ⟨names ++ [info.name], .child hfind hancestry, ?_⟩
          obtain rfl := Path.found.inj hmap
          split_ifs with hslash
          · rw [List.append_assoc]
            refine .slash info.name ⟨hslash.1, ?_⟩ hjoined
            rintro rfl
            exact hslash.2 rfl
          · refine .close info.name ?_ hjoined
            by_contra hnot
            obtain ⟨hne, hlast⟩ := not_or.mp hnot
            exact hslash ⟨hne, hlast⟩
      · obtain rfl := Path.found.inj (Option.some.inj h)
        have hroot : id = info.parent ∨ info.name = ['/'] := by
          by_contra hnot
          exact hinner (not_or.mp hnot)
        exact ⟨[info.name], .root hfind hroot, .root info.name⟩

theorem getDirPath_of_found (h : viewer.find id true = some info) :
    viewer.getDirPath depth id = (viewer.getPath depth info.parent 0).map Path.dir := by
  unfold getDirPath
  rw [h]
  rfl

theorem getFilePath_of_found (h : viewer.find id true = some info) :
    viewer.getFilePath depth id = (viewer.getDirPath depth id).map fun path =>
      if path = [] then []
      else (if path ≠ ['/'] then path ++ ['/'] else path) ++ info.name := by
  unfold getFilePath
  rw [h]

/-- The directory of a file, if there is a path. -/
theorem getDirPath_follows {dir : List Char} (h : viewer.getDirPath depth id = some dir) :
    dir = [] ∨ ∃ info names, viewer.find id true = some info ∧
      viewer.Ancestry info.parent names ∧ Joined names dir := by
  cases hfind : viewer.find id true with
  | none =>
    unfold getDirPath at h
    rw [hfind] at h
    exact Or.inl (Option.some.inj h).symm
  | some info =>
    rw [getDirPath_of_found hfind] at h
    obtain ⟨result, hresult, hmap⟩ := Option.map_eq_some_iff.mp h
    cases result with
    | exceeded => exact Or.inl hmap.symm
    | missing => exact Or.inl hmap.symm
    | found path =>
      obtain rfl := hmap
      obtain ⟨names, hancestry, hjoined⟩ := getPath_found hresult
      exact Or.inr ⟨info, names, rfl, hancestry, hjoined⟩

theorem getFilePath_follows {path : List Char} (h : viewer.getFilePath depth id = some path) :
    path = [] ∨ ∃ names, viewer.Ancestry id names ∧ Joined names path := by
  cases hfind : viewer.find id true with
  | none =>
    unfold getFilePath at h
    rw [hfind] at h
    exact Or.inl (Option.some.inj h).symm
  | some info =>
    rw [getFilePath_of_found hfind] at h
    obtain ⟨dir, hdir, hmap⟩ := Option.map_eq_some_iff.mp h
    rcases getDirPath_follows hdir with hempty | ⟨info', names, hfind', hancestry, hjoined⟩
    · rw [if_pos hempty] at hmap
      exact Or.inl hmap.symm
    · obtain rfl := Option.some.inj (hfind.symm.trans hfind')
      split_ifs at hmap with hempty hroot
      · exact Or.inl hmap.symm
      · refine Or.inr ⟨names ++ [info.name], .child hfind hancestry, ?_⟩
        rw [← hmap, List.append_assoc]
        exact .slash info.name ⟨hempty, hroot⟩ hjoined
      · refine Or.inr ⟨names ++ [info.name], .child hfind hancestry, ?_⟩
        rw [← hmap]
        exact .close info.name (Or.inr (by rw [not_not.mp hroot]; rfl)) hjoined

/-- The paths of a file are computed and follow its parents unless the walk runs into records
without names that are among their own ancestors. -/
theorem pathsFollow_iff (viewer : FileSystemViewer) (id : FileKey) :
    viewer.PathsFollow id ↔ ∀ info, viewer.find id true = some info →
      ¬ Trapped viewer.upward PATH_MAX info.parent := by
  constructor
  · intro hfollow info hfind htrapped
    obtain ⟨depth, dir, hdir⟩ := hfollow.dirReturns
    rw [getDirPath_of_found hfind, getPath_eq_none_iff_trapped.mpr htrapped depth] at hdir
    cases hdir
  · intro hfree
    have hreturns : ∃ depth dir, viewer.getDirPath depth id = some dir := by
      cases hfind : viewer.find id true with
      | none => exact ⟨0, [], by rw [getDirPath, hfind]⟩
      | some info =>
        obtain ⟨depth, hsome⟩ :=
          not_forall.mp (mt getPath_eq_none_iff_trapped.mp (hfree info hfind))
        obtain ⟨result, hresult⟩ := Option.ne_none_iff_exists'.mp hsome
        exact ⟨depth, _, by rw [getDirPath_of_found hfind, hresult]; rfl⟩
    refine ⟨hreturns, ?_, fun _ _ => getDirPath_follows, fun _ _ => getFilePath_follows⟩
    obtain ⟨depth, dir, hdir⟩ := hreturns
    cases hfind : viewer.find id true with
    | none => exact ⟨0, [], by rw [getFilePath, hfind]⟩
    | some info => exact ⟨depth, _, by rw [getFilePath_of_found hfind, hdir]; rfl⟩

/-- Two directories without names, each the parent of the other, and a file in one of them. -/
def nameless : FileSystemViewer :=
  (((⟨[]⟩ : FileSystemViewer).addFile ⟨1, 2, 0⟩ ⟨⟨1, 3, 0⟩, []⟩).addFile ⟨1, 3, 0⟩
    ⟨⟨1, 2, 0⟩, []⟩).addFile ⟨1, 4, 0⟩ ⟨⟨1, 2, 0⟩, ['f']⟩

theorem not_pathsFollow_nameless : ¬ nameless.PathsFollow ⟨1, 4, 0⟩ := by
  intro hfollow
  have htwo : nameless.upward ⟨1, 2, 0⟩ = some (0, ⟨1, 3, 0⟩) := by decide
  have hthree : nameless.upward ⟨1, 3, 0⟩ = some (0, ⟨1, 2, 0⟩) := by decide
  have hcycle : Walk nameless.upward 2 ⟨1, 2, 0⟩ 0 ⟨1, 2, 0⟩ := .cons htwo (.cons hthree (.nil _))
  have htrapped : Trapped nameless.upward PATH_MAX ⟨1, 2, 0⟩ :=
    ⟨0, 0, ⟨1, 2, 0⟩, 1, .nil _, Nat.zero_le _, hcycle⟩
  have hfind : nameless.find ⟨1, 4, 0⟩ true = some ⟨⟨1, 2, 0⟩, ['f']⟩ := by decide
  obtain ⟨depth, dir, hdir⟩ := hfollow.dirReturns
  rw [getDirPath_of_found hfind, getPath_eq_none_iff_trapped.mpr htrapped depth] at hdir
  cases hdir

end FileSystemViewer

end Octf.Parser.v2
