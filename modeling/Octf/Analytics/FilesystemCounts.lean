import Octf.Analytics.DeviceStatistics
import Octf.Analytics.FilesystemStatistics
import Octf.Foundation.WeightedWalk
import Octf.Parser.FilePaths

/-! An event of a file is counted once in the directory of the file, and once for the extension and
the prefix of its name, provided that the parents of the file lead to a root. -/
namespace Octf.Analytics
open Foundation Octf.Parser
open IoStatistics (ok_of_bind)

namespace FilesystemStatistics

/-! ### Nodes -/

/-- The node of a reference. -/
def reach (path : List Key) (s : FilesystemStatistics) : FilesystemStatistics :=
  path.foldl (fun s key => s.getStatisticsByKey key) s

/-- The number of IOs that are counted in a node. -/
def ioCount (path : List Key) (s : FilesystemStatistics) : ℕ :=
  (s.reach path).ioStats.total.count

variable {s s' child : FilesystemStatistics} {viewer : v2.FileSystemViewer} {event : ParsedEvent}
  {id : FileKey} {devId depth : ℕ} {path directory : List Key} {key : Key}

theorem getStatisticsByKey_assign (key key' : Key) (child s : FilesystemStatistics) :
    ({ s with children := assign key child s.children } : FilesystemStatistics).getStatisticsByKey
      key' = if key = key' then child else s.getStatisticsByKey key' := by
  unfold getStatisticsByKey
  simp only [valueAt_assign]
  split_ifs <;> rfl

/-- Only the node of the path is updated. -/
theorem ioCount_atPath (h : s.atPath (updateIoStats event) path = .ok s') (path' : List Key) :
    s'.ioCount path' = s.ioCount path' + if path' = path then 1 else 0 := by
  induction path generalizing s s' path' with
  | nil =>
    obtain ⟨ioStats, hcount, h⟩ := ok_of_bind h
    obtain rfl := Except.ok.inj h
    cases path' with
    | nil => exact (IoStatistics.counts_of_count hcount).1
    | cons key path' => rfl
  | cons key path ih =>
    obtain ⟨child, hchild, h⟩ := ok_of_bind h
    obtain rfl := Except.ok.inj h
    cases path' with
    | nil => rfl
    | cons key' path' =>
      change ioCount path' (getStatisticsByKey key' _) =
        ioCount path' (s.getStatisticsByKey key') + _
      rw [getStatisticsByKey_assign]
      by_cases hkey : key = key'
      · subst hkey
        rw [if_pos rfl, ih hchild]
        simp only [List.cons.injEq, true_and]
      · have hne : ¬ key' :: path' = key :: path := fun heq => hkey (List.cons.inj heq).1.symm
        rw [if_neg hkey, if_neg hne, Nat.add_zero]

theorem ioCount_countName {statsCase : StatisticsCase} {name : List Char}
    (h : s.countName statsCase name event = .ok s') (path' : List Key) :
    s'.ioCount path' = s.ioCount path' + if name ≠ [] ∧
      path' = [nameKey statsCase name event] then 1 else 0 := by
  unfold countName at h
  by_cases hname : name ≠ []
  · rw [if_pos hname] at h
    rw [ioCount_atPath h]
    simp only [hname, ne_eq, not_false_eq_true, true_and]
  · rw [if_neg hname] at h
    obtain rfl := Except.ok.inj h
    simp only [hname, false_and, if_false, Nat.add_zero]

/-! ### Directories -/

/-- The ids from the top of the parents down to a directory. -/
inductive ParentChain (viewer : v2.FileSystemViewer) : FileKey → List FileKey → Prop
  | top {id : FileKey} (h : viewer.getParentId id = id) : ParentChain viewer id [id]
  | child {id : FileKey} {ids : List FileKey} (h : viewer.getParentId id ≠ id)
    (hparent : ParentChain viewer (viewer.getParentId id) ids) : ParentChain viewer id (ids ++ [id])

/-- The step of `getStatisticsByIds` to the parent. -/
def climb (viewer : v2.FileSystemViewer) (id : FileKey) : Option (ℕ × FileKey) :=
  if viewer.getParentId id = id then none else some (0, viewer.getParentId id)

theorem finite_climb (viewer : v2.FileSystemViewer) :
    {parent | ∃ id weight, climb viewer id = some (weight, parent)}.Finite := by
  refine (⟨0, 0, 0⟩ :: viewer.fileInfo.map fun e => e.2.parent).finite_toSet.subset ?_
  rintro parent ⟨id, weight, hclimb⟩
  unfold climb at hclimb
  split_ifs at hclimb
  obtain ⟨-, rfl⟩ := Prod.mk.inj (Option.some.inj hclimb)
  unfold v2.FileSystemViewer.getParentId
  cases hfind : viewer.find id true with
  | none => exact List.mem_cons_self
  | some info =>
    obtain ⟨key, hmem⟩ := v2.FileSystemViewer.mem_of_find hfind
    exact List.mem_cons_of_mem _ (List.mem_map.mpr ⟨(key, info), hmem, rfl⟩)

theorem getStatisticsByIds_eq_none_iff :
    getStatisticsByIds viewer devId depth id = none ↔
      ∃ w top, w ≤ 0 ∧ Walk (climb viewer) depth id w top := by
  induction depth generalizing id with
  | zero => exact ⟨fun _ => ⟨0, id, le_rfl, .nil id⟩, fun _ => rfl⟩
  | succ depth ih =>
    unfold getStatisticsByIds
    simp only [Option.map_eq_none_iff]
    split_ifs with htop
    · have hstop : climb viewer id = none := if_pos htop
      refine ⟨fun h => (by cases h), ?_⟩
      rintro ⟨w, top, -, hwalk⟩
      cases hwalk with
      | cons hnext _ => rw [hstop] at hnext; cases hnext
    · have hclimb : climb viewer id = some (0, viewer.getParentId id) := if_neg htop
      rw [ih]
      constructor
      · rintro ⟨w, top, hweight, hwalk⟩
        exact ⟨0 + w, top, by omega, .cons hclimb hwalk⟩
      · rintro ⟨w, top, hweight, hwalk⟩
        cases hwalk with
        | cons hnext hwalk =>
          obtain ⟨rfl, rfl⟩ := Prod.mk.inj (Option.some.inj (hclimb.symm.trans hnext))
          exact ⟨_, top, by omega, hwalk⟩

theorem getStatisticsByIds_eq_none_iff_trapped (devId : ℕ) :
    (∀ depth, getStatisticsByIds viewer devId depth id = none) ↔ Trapped (climb viewer) 0 id := by
  rw [trapped_iff (finite_climb viewer)]
  exact forall_congr' fun depth => getStatisticsByIds_eq_none_iff

/-- The reference has the names along the parents. -/
theorem getStatisticsByIds_eq_some (h : getStatisticsByIds viewer devId depth id = some path) :
    ∃ ids, ParentChain viewer id ids ∧ path = ids.map (directoryKey viewer devId) := by
  induction depth generalizing id path with
  | zero => cases h
  | succ depth ih =>
    unfold getStatisticsByIds at h
    obtain ⟨above, habove, rfl⟩ := Option.map_eq_some_iff.mp h
    split_ifs at habove with htop
    · obtain rfl := Option.some.inj habove
      exact ⟨[id], .top htop, rfl⟩
    · obtain ⟨ids, hchain, rfl⟩ := ih habove
      exact ⟨ids ++ [id], .child htop hchain, by rw [List.map_append]; rfl⟩

/-! ### One event -/

/-- One more IO in the directory of the file, and one for each of the names that it has. -/
def CountedOnce (viewer : v2.FileSystemViewer) (event : ParsedEvent)
    (s s' : FilesystemStatistics) : Prop :=
  let ext := viewer.getFileExtension (fileId event)
  let basename := viewer.getFileNamePrefix (fileId event)
  ∃ ids, ParentChain viewer (viewer.getParentId (fileId event)) ids ∧ ∀ path,
    s'.ioCount path = s.ioCount path +
      if path = ids.map (directoryKey viewer event.device.id) ∨
        (ext ≠ [] ∧ path = [nameKey .kFileExtension ext event]) ∨
        (basename ≠ [] ∧ path = [nameKey .kFileNamePrefix basename event]) then 1 else 0

/-- An event is counted, and in the right nodes unless it is a discard. -/
structure Counts (viewer : v2.FileSystemViewer) (event : ParsedEvent)
    (s : FilesystemStatistics) : Prop where
  returns : ∃ depth result, count depth viewer event s = some result
  once : ∀ depth s', count depth viewer event s = some (.ok s') → ¬ IsDiscard event →
    event.file.isSome → CountedOnce viewer event s s'

/-- No cycle of directories is above the file. -/
def Rooted (viewer : v2.FileSystemViewer) (event : ParsedEvent) : Prop :=
  IsDiscard event ∨ event.file = none ∨
    ¬ Trapped (climb viewer) 0 (viewer.getParentId (fileId event))

theorem statsCase_of_map_eq {ids : List FileKey}
    (h : ids.map (directoryKey viewer devId) = [key]) : key.statsCase = .kDirectory := by
  obtain ⟨id, -, rfl⟩ := List.map_eq_singleton_iff.mp h
  rfl

theorem countedOnce_of_countFile {ids : List FileKey}
    (hchain : ParentChain viewer (viewer.getParentId (fileId event)) ids)
    (h : s.countFile viewer (ids.map (directoryKey viewer event.device.id)) event = .ok s') :
    CountedOnce viewer event s s' := by
  obtain ⟨s₁, hdirectory, h⟩ := ok_of_bind h
  obtain ⟨s₂, hextension, hbasename⟩ := ok_of_bind h
  refine ⟨ids, hchain, fun path => ?_⟩
  rw [ioCount_countName hbasename, ioCount_countName hextension, ioCount_atPath hdirectory]
  -- the paths differ in the cases of their keys
  by_cases hdir : path = ids.map (directoryKey viewer event.device.id)
  · have hnot : ∀ {statsCase : StatisticsCase} (name : List Char), statsCase ≠ .kDirectory →
        ¬ (name ≠ [] ∧ path = [nameKey statsCase name event]) := by
      intro statsCase name hcase hname
      exact hcase (statsCase_of_map_eq (hdir.symm.trans hname.2))
    rw [if_pos hdir, if_neg (hnot _ (by decide)), if_neg (hnot _ (by decide)),
      if_pos (Or.inl hdir)]
  · rw [if_neg hdir]
    by_cases hext : viewer.getFileExtension (fileId event) ≠ [] ∧ path =
        [nameKey .kFileExtension (viewer.getFileExtension (fileId event)) event]
    · have hnot : ¬ (viewer.getFileNamePrefix (fileId event) ≠ [] ∧ path =
          [nameKey .kFileNamePrefix (viewer.getFileNamePrefix (fileId event)) event]) := by
        intro hname
        have hkeys := (List.cons.inj (hext.2.symm.trans hname.2)).1
        have hcases : StatisticsCase.kFileExtension = .kFileNamePrefix :=
          congrArg Key.statsCase hkeys
        cases hcases
      rw [if_pos hext, if_neg hnot, if_pos (Or.inr (Or.inl hext))]
    · rw [if_neg hext]
      simp only [hdir, hext, false_or, Nat.add_zero]

/-- Every event is counted in the right nodes if and only if it is rooted. -/
theorem counts_iff (viewer : v2.FileSystemViewer) (event : ParsedEvent)
    (s : FilesystemStatistics) : Counts viewer event s ↔ Rooted viewer event := by
  by_cases hdiscard : IsDiscard event
  · have hcount : ∀ depth, count depth viewer event s = some (s.discard event) :=
      fun _ => if_pos hdiscard
    exact ⟨fun _ => Or.inl hdiscard, fun _ =>
      ⟨⟨0, _, hcount 0⟩, fun _ _ _ hnot => absurd hdiscard hnot⟩⟩
  · cases hfile : event.file with
    | none =>
      have hcount : ∀ depth, count depth viewer event s = some (.ok s) := by
        intro depth
        rw [count, if_neg hdiscard, hfile]
        rfl
      refine ⟨fun _ => Or.inr (Or.inl hfile), fun _ => ⟨⟨0, _, hcount 0⟩, ?_⟩⟩
      intro _ _ _ _ hsome
      rw [hfile] at hsome
      cases hsome
    | some file =>
      have hcount : ∀ depth, count depth viewer event s =
          (getStatisticsByIds viewer event.device.id depth
            (viewer.getParentId (fileId event))).map
              fun directory => s.countFile viewer directory event := by
        intro depth
        rw [count, if_neg hdiscard, hfile]
        rfl
      have hrooted : Rooted viewer event ↔
          ¬ Trapped (climb viewer) 0 (viewer.getParentId (fileId event)) := by
        unfold Rooted
        rw [hfile]
        simp only [hdiscard, reduceCtorEq, false_or]
      rw [hrooted, ← getStatisticsByIds_eq_none_iff_trapped event.device.id, not_forall]
      constructor
      · intro hcounts
        obtain ⟨depth, result, hresult⟩ := hcounts.returns
        refine ⟨depth, fun hnone => ?_⟩
        rw [hcount, hnone] at hresult
        cases hresult
      · rintro ⟨depth, hsome⟩
        obtain ⟨directory, hdirectory⟩ := Option.ne_none_iff_exists'.mp hsome
        refine ⟨⟨depth, _, by rw [hcount, hdirectory]; rfl⟩, fun depth' s' hs' _ _ => ?_⟩
        rw [hcount] at hs'
        obtain ⟨path, hpath, hok⟩ := Option.map_eq_some_iff.mp hs'
        obtain ⟨ids, hchain, rfl⟩ := getStatisticsByIds_eq_some hpath
        exact countedOnce_of_countFile hchain hok

/-! ### Sequences of events -/

/-- The statistics of all nodes are valid. -/
inductive Sound : FilesystemStatistics → Prop
  | node {s : FilesystemStatistics} (hstats : s.ioStats.Valid)
    (hsize : 0 < s.ioStats.lbaHistRangeSize)
    (hchildren : ∀ key child, (key, child) ∈ s.children → Sound child) : Sound s

theorem sound_empty (devId partId : ℕ) (statsCase : StatisticsCase) :
    Sound { new with devId := devId, partId := partId, statsCase := statsCase } :=
  .node (IoStatistics.valid_new _) (by decide : 0 < LBA_HIT_MAP_RANGE_SIZE_DEFAULT)
    fun _ _ hmem => absurd hmem List.not_mem_nil

theorem Sound.getStatisticsByKey (h : Sound s) (key : Key) : Sound (s.getStatisticsByKey key) := by
  unfold FilesystemStatistics.getStatisticsByKey
  cases hvalue : valueAt key s.children with
  | none => exact sound_empty ..
  | some child =>
    obtain ⟨-, -, hchildren⟩ := h
    exact hchildren _ child (mem_of_valueAt hvalue)

/-- A count of the statistics of a node succeeds. -/
theorem exists_count {ioStats : IoStatistics} (hstats : ioStats.Valid)
    (hsize : 0 < ioStats.lbaHistRangeSize) (hio : IoStatistics.Bounded (eventIo event)) :
    ∃ ioStats', ioStats.count event = .ok ioStats' ∧ ioStats'.Valid ∧
      0 < ioStats'.lbaHistRangeSize := by
  rcases IoStatistics.count_spec hstats hio with ⟨hzero, -⟩ | ⟨ioStats', hok, hcounted⟩
  · exact absurd hzero hsize.ne'
  · exact ⟨ioStats', hok, hcounted.valid, hcounted.rangeSize ▸ hsize⟩

theorem Sound.updateIoStats (h : Sound s) (hio : IoStatistics.Bounded (eventIo event)) :
    ∃ s', s.updateIoStats event = .ok s' ∧ Sound s' := by
  obtain ⟨hstats, hsize, hchildren⟩ := h
  obtain ⟨ioStats, hok, hstats', hsize'⟩ := exists_count hstats hsize hio
  exact ⟨{ s with ioStats := ioStats }, by rw [FilesystemStatistics.updateIoStats, hok]; rfl,
    .node hstats' hsize' hchildren⟩

theorem Sound.atPath (h : Sound s) (hio : IoStatistics.Bounded (eventIo event))
    (path : List Key) : ∃ s', s.atPath (FilesystemStatistics.updateIoStats event) path = .ok s' ∧
      Sound s' := by
  induction path generalizing s with
  | nil => exact h.updateIoStats hio
  | cons key path ih =>
    obtain ⟨child, hok, hchild⟩ := ih (h.getStatisticsByKey key)
    obtain ⟨hstats, hsize, hchildren⟩ := h
    refine ⟨{ s with children := assign key child s.children }, ?_,
      .node hstats hsize fun key' child' hmem => ?_⟩
    · rw [FilesystemStatistics.atPath, hok]
      rfl
    · rcases mem_assign hmem with heq | hmem
      · obtain ⟨-, rfl⟩ := Prod.mk.inj heq
        exact hchild
      · exact hchildren key' child' hmem

theorem Sound.countName (h : Sound s) (hio : IoStatistics.Bounded (eventIo event))
    (statsCase : StatisticsCase) (name : List Char) :
    ∃ s', s.countName statsCase name event = .ok s' ∧ Sound s' := by
  unfold FilesystemStatistics.countName
  split_ifs
  · exact h.atPath hio _
  · exact ⟨s, rfl, h⟩

theorem Sound.countFile (h : Sound s) (hio : IoStatistics.Bounded (eventIo event))
    (viewer : v2.FileSystemViewer) (directory : List Key) :
    ∃ s', s.countFile viewer directory event = .ok s' ∧ Sound s' := by
  obtain ⟨s₁, hok₁, h₁⟩ := h.atPath hio directory
  obtain ⟨s₂, hok₂, h₂⟩ :=
    h₁.countName hio .kFileExtension (viewer.getFileExtension (fileId event))
  obtain ⟨s₃, hok₃, h₃⟩ :=
    h₂.countName hio .kFileNamePrefix (viewer.getFileNamePrefix (fileId event))
  refine ⟨s₃, ?_, h₃⟩
  unfold FilesystemStatistics.countFile
  rw [hok₁, IoStatistics.bind_ok, hok₂, IoStatistics.bind_ok, hok₃]

/-- The children are counted one after the other. -/
theorem exists_discardChildren {children : List (Key × FilesystemStatistics)}
    (h : ∀ key child, (key, child) ∈ children → ∃ child', child.discard event = .ok child' ∧
      Sound child') : ∃ children', discardChildren event children = .ok children' ∧
        ∀ key child, (key, child) ∈ children' → Sound child := by
  induction children with
  | nil => exact ⟨[], rfl, fun _ _ hmem => absurd hmem List.not_mem_nil⟩
  | cons entry children ih =>
    obtain ⟨key, child⟩ := entry
    obtain ⟨child', hchild, hsound⟩ := h key child List.mem_cons_self
    obtain ⟨children', hchildren, hall⟩ := ih fun key' child' hmem =>
      h key' child' (List.mem_cons_of_mem _ hmem)
    refine ⟨(key, child') :: children', ?_, fun key' child'' hmem => ?_⟩
    · rw [discardChildren, hchild, IoStatistics.bind_ok, hchildren]
      rfl
    · rcases List.mem_cons.mp hmem with heq | hmem
      · obtain ⟨-, rfl⟩ := Prod.mk.inj heq
        exact hsound
      · exact hall key' child'' hmem

theorem Sound.discard (h : Sound s) (hio : IoStatistics.Bounded (eventIo event)) :
    ∃ s', s.discard event = .ok s' ∧ Sound s' := by
  induction h with
  | @node s hstats hsize _ ih =>
    obtain ⟨children', hchildren, hall⟩ := exists_discardChildren ih
    obtain ⟨ioStats', hok, hstats', hsize'⟩ := exists_count hstats hsize hio
    obtain ⟨children, ioStats, devId, partId, statsCase⟩ := s
    rw [FilesystemStatistics.discard]
    split_ifs
    · rw [hok, IoStatistics.bind_ok, hchildren]
      exact ⟨_, rfl, .node hstats' hsize' hall⟩
    · rw [IoStatistics.bind_ok, hchildren]
      exact ⟨_, rfl, .node hstats hsize hall⟩

/-- A rooted event is counted without an exception, with values for which all
distributions are exact. -/
theorem Sound.count (h : Sound s) {viewer : v2.FileSystemViewer} (hrooted : Rooted viewer event)
    (hio : IoStatistics.Bounded (eventIo event)) :
    ∃ depth s', FilesystemStatistics.count depth viewer event s = some (.ok s') ∧ Sound s' := by
  obtain ⟨depth, result, hresult⟩ := ((counts_iff viewer event s).mpr hrooted).returns
  have hsucceeds : ∃ s', result = .ok s' ∧ Sound s' := by
    unfold FilesystemStatistics.count at hresult
    split_ifs at hresult with hdiscard hfile
    · obtain rfl := Option.some.inj hresult
      exact h.discard hio
    · obtain ⟨directory, -, rfl⟩ := Option.map_eq_some_iff.mp hresult
      exact h.countFile hio viewer directory
    · exact ⟨s, (Option.some.inj hresult).symm, h⟩
  obtain ⟨s', rfl, hs'⟩ := hsucceeds
  exact ⟨depth, s', hresult, hs'⟩

/-- What holds of every event that a sequence of calls comes to. -/
def Each (P : v2.FileSystemViewer → ParsedEvent → FilesystemStatistics → Prop) :
    List (v2.FileSystemViewer × ParsedEvent) → FilesystemStatistics → Prop
  | [], _ => True
  | (viewer, event) :: calls, s => P viewer event s ∧
    ∀ depth s', count depth viewer event s = some (.ok s') → Each P calls s'

/-- All calls return without an exception. -/
def Succeeds : List (v2.FileSystemViewer × ParsedEvent) → FilesystemStatistics → Prop
  | [], _ => True
  | (viewer, event) :: calls, s =>
    ∃ depth s', count depth viewer event s = some (.ok s') ∧ Succeeds calls s'

/-- The events of a sequence are counted, each in the right nodes. -/
structure CountsAll (calls : List (v2.FileSystemViewer × ParsedEvent)) : Prop where
  each : Each Counts calls new
  succeeds : (∀ call ∈ calls, IoStatistics.Bounded (eventIo call.2)) → Succeeds calls new

theorem each_congr {P Q : v2.FileSystemViewer → ParsedEvent → FilesystemStatistics → Prop}
    (h : ∀ viewer event s, P viewer event s ↔ Q viewer event s)
    (calls : List (v2.FileSystemViewer × ParsedEvent)) (s : FilesystemStatistics) :
    Each P calls s ↔ Each Q calls s := by
  induction calls generalizing s with
  | nil => exact Iff.rfl
  | cons call calls ih =>
    exact and_congr (h _ _ s) (forall_congr' fun _ => forall_congr' fun s' => imp_congr_right
      fun _ => ih s')

theorem succeeds_of_rooted {calls : List (v2.FileSystemViewer × ParsedEvent)} (h : Sound s)
    (hrooted : Each (fun viewer event _ => Rooted viewer event) calls s)
    (hbounded : ∀ call ∈ calls, IoStatistics.Bounded (eventIo call.2)) : Succeeds calls s := by
  induction calls generalizing s with
  | nil => trivial
  | cons call calls ih =>
    obtain ⟨depth, s', hcount, hs'⟩ := h.count hrooted.1 (hbounded call List.mem_cons_self)
    exact ⟨depth, s', hcount, ih hs' (hrooted.2 depth s' hcount) fun call' hmem =>
      hbounded call' (List.mem_cons_of_mem call hmem)⟩

/-- The events of a sequence are counted in the right nodes if and only if no cycle of directories
is above their files. -/
theorem countsAll_iff (calls : List (v2.FileSystemViewer × ParsedEvent)) :
    CountsAll calls ↔ Each (fun viewer event _ => Rooted viewer event) calls new := by
  have heach := each_congr counts_iff calls new
  constructor
  · exact fun hcounts => heach.mp hcounts.each
  · intro hrooted
    exact ⟨heach.mpr hrooted, succeeds_of_rooted (sound_empty 0 0 .NAME_NOT_SET) hrooted⟩

/-- Two directories, each the parent of the other, and a file in one of them. -/
def twoParents : v2.FileSystemViewer :=
  (((⟨[]⟩ : v2.FileSystemViewer).addFile ⟨1, 2, 0⟩ ⟨⟨1, 3, 0⟩, ['a']⟩).addFile ⟨1, 3, 0⟩
    ⟨⟨1, 2, 0⟩, ['b']⟩).addFile ⟨1, 4, 0⟩ ⟨⟨1, 2, 0⟩, ['f']⟩

/-- A write to the file. -/
def writeToFile : ParsedEvent :=
  ⟨⟨1, 3⟩, some ⟨8, 8, .Write, false, 7, 1, 0, ⟨false, false, false, false, false⟩⟩,
    ⟨5, "disk", 1, ""⟩, some { ParsedFile.empty with id := 4 }, []⟩

theorem not_countsAll_twoParents : ¬ CountsAll [(twoParents, writeToFile)] := by
  intro hcounts
  have htwo : climb twoParents ⟨1, 2, 0⟩ = some (0, ⟨1, 3, 0⟩) := by decide
  have hthree : climb twoParents ⟨1, 3, 0⟩ = some (0, ⟨1, 2, 0⟩) := by decide
  have hcycle : Walk (climb twoParents) 2 ⟨1, 2, 0⟩ 0 ⟨1, 2, 0⟩ :=
    .cons htwo (.cons hthree (.nil _))
  have htrapped : Trapped (climb twoParents) 0 (twoParents.getParentId (fileId writeToFile)) :=
    ⟨0, 0, ⟨1, 2, 0⟩, 1, .nil _, le_rfl, hcycle⟩
  have hrooted := (counts_iff twoParents writeToFile new).mp hcounts.each.1
  rcases hrooted with hdiscard | hnone | hfree
  · exact absurd hdiscard (by decide)
  · cases hnone
  · exact hfree htrapped

end FilesystemStatistics

end Octf.Analytics
