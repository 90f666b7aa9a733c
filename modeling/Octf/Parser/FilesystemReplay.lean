import Mathlib.Data.List.Induction
import Octf.Parser.FilesystemTree

/-! The tree in memory has the last naming of every file, the one rebuilt from the extension the
first: they are the same when no naming changes what the first one said. -/
namespace Octf.Parser.v2
open Foundation
namespace FilesystemTree

/-- What the events first say of a file. -/
def firstNaming (events : List Event) (id : FileKey) : Option FileInfo :=
  valueAt id (events.filterMap naming)

def lastNaming (events : List Event) (id : FileKey) : Option FileInfo :=
  valueAt id (events.filterMap naming).reverse

variable {t : FilesystemTree} {events : List Event} {event : Event} {id key : FileKey}
  {info : FileInfo} {part : ℕ} {isWritable : Bool}

theorem hasFile_eq (viewer : FileSystemViewer) (id : FileKey) :
    viewer.hasFile id = (valueAt id viewer.fileInfo).isSome := by
  unfold FileSystemViewer.hasFile FileSystemViewer.find
  cases valueAt id viewer.fileInfo <;> rfl

/-- A file that is there is found as it is. -/
theorem find_eq {viewer : FileSystemViewer} (h : valueAt id viewer.fileInfo = some info)
    (week : Bool) : viewer.find id week = some info := by
  rw [FileSystemViewer.find, h]

theorem handleEvent_of_none (h : naming event = none) : t.handleEvent isWritable event = t := by
  rw [handleEvent, h]

theorem handleEvent_of_some (h : naming event = some (id, info)) :
    t.handleEvent isWritable event =
      ⟨Function.update t.viewers id.partitionId ((t.viewers id.partitionId).addFile id info),
        if isWritable ∧ (t.viewers id.partitionId).hasFile id = false then t.records ++ [event]
        else t.records⟩ := by
  rw [handleEvent, h]

theorem processed_append (events : List Event) (event : Event) :
    processed (events ++ [event]) = (processed events).handleEvent true event := by
  rw [processed, List.foldl_append]
  rfl

/-- What a viewer knows once a file is named. -/
theorem valueAt_addFile (viewers : ℕ → FileSystemViewer) :
    valueAt key (Function.update viewers id.partitionId
        ((viewers id.partitionId).addFile id info) part).fileInfo =
      if id.partitionId = part ∧ id = key then some info
      else valueAt key (viewers part).fileInfo := by
  by_cases hpart : id.partitionId = part
  · subst hpart
    rw [Function.update_self, FileSystemViewer.addFile, valueAt_assign]
    simp
  · rw [Function.update_of_ne (Ne.symm hpart), if_neg (fun h => hpart h.1)]

theorem keys_addFile (viewers : ℕ → FileSystemViewer) :
    (Function.update viewers id.partitionId
        ((viewers id.partitionId).addFile id info) part).fileInfo.map Prod.fst =
      if id.partitionId = part ∧ id ∉ (viewers part).fileInfo.map Prod.fst then
        (viewers part).fileInfo.map Prod.fst ++ [id]
      else (viewers part).fileInfo.map Prod.fst := by
  by_cases hpart : id.partitionId = part
  · subst hpart
    rw [Function.update_self, FileSystemViewer.addFile, keys_assign]
    by_cases hmem : id ∈ (viewers id.partitionId).fileInfo.map Prod.fst
    · rw [if_pos hmem, if_neg fun h => h.2 hmem]
    · rw [if_neg hmem, if_pos ⟨rfl, hmem⟩]
  · rw [Function.update_of_ne (Ne.symm hpart), if_neg (fun h => hpart h.1)]

theorem nodup_addFile {viewers : ℕ → FileSystemViewer}
    (h : ∀ part, ((viewers part).fileInfo.map Prod.fst).Nodup) :
    ((Function.update viewers id.partitionId
        ((viewers id.partitionId).addFile id info) part).fileInfo.map Prod.fst).Nodup := by
  by_cases hpart : id.partitionId = part
  · subst hpart
    rw [Function.update_self]
    exact nodup_keys_assign (h _)
  · rw [Function.update_of_ne (Ne.symm hpart)]
    exact h part

/-- Both trees know the same files, in the same places. -/
structure Paired (events : List Event) : Prop where
  keys : ∀ part, ((processed events).viewers part).fileInfo.map Prod.fst =
    ((rebuilt events).viewers part).fileInfo.map Prod.fst
  nodup : ∀ part, (((processed events).viewers part).fileInfo.map Prod.fst).Nodup
  last : ∀ part key, valueAt key ((processed events).viewers part).fileInfo =
    if key.partitionId = part then lastNaming events key else none
  first : ∀ part key, valueAt key ((rebuilt events).viewers part).fileInfo =
    if key.partitionId = part then firstNaming events key else none

theorem lastNaming_append (h : naming event = some (id, info)) :
    lastNaming (events ++ [event]) key = if id = key then some info else lastNaming events key := by
  unfold lastNaming
  rw [List.filterMap_append, List.reverse_append]
  simp only [List.filterMap_cons, h, List.filterMap_nil, List.reverse_singleton,
    List.singleton_append, valueAt_cons]

theorem firstNaming_append (h : naming event = some (id, info)) :
    firstNaming (events ++ [event]) key =
      (firstNaming events key).or (if id = key then some info else none) := by
  unfold firstNaming
  rw [List.filterMap_append, valueAt_append]
  simp only [List.filterMap_cons, h, List.filterMap_nil, valueAt_cons, valueAt_nil]

theorem paired_append (h : Paired events) (event : Event) : Paired (events ++ [event]) := by
  cases hnaming : naming event with
  | none =>
    have hprocessed : processed (events ++ [event]) = processed events := by
      rw [processed_append, handleEvent_of_none hnaming]
    have hrebuilt : rebuilt (events ++ [event]) = rebuilt events := by
      rw [rebuilt, hprocessed, rebuilt]
    have hnamings : (events ++ [event]).filterMap naming = events.filterMap naming := by
      simp [List.filterMap_append, hnaming]
    obtain ⟨hkeys, hnodup, hlast, hfirst⟩ := h
    constructor <;> simp only [hprocessed, hrebuilt, lastNaming, firstNaming, hnamings] <;>
      assumption
  | some named =>
    obtain ⟨id, info⟩ := named
    have hprocessed := processed_append events event
    rw [handleEvent_of_some hnaming] at hprocessed
    have hlast : ∀ part key, valueAt key ((processed (events ++ [event])).viewers part).fileInfo =
        if key.partitionId = part then lastNaming (events ++ [event]) key else none := by
      intro part key
      rw [hprocessed, valueAt_addFile, lastNaming_append hnaming, h.last]
      by_cases hid : id = key
      · subst hid
        by_cases hpart : id.partitionId = part <;> simp [hpart]
      · simp [hid]
    have hnodup : ∀ part,
        (((processed (events ++ [event])).viewers part).fileInfo.map Prod.fst).Nodup := by
      intro part
      rw [hprocessed]
      exact nodup_addFile h.nodup
    -- whether the file is named for the first time, and so written to the extension
    have hhas := hasFile_eq ((processed events).viewers id.partitionId) id
    by_cases hmem : id ∈ ((processed events).viewers id.partitionId).fileInfo.map Prod.fst
    · have hsome : valueAt id ((processed events).viewers id.partitionId).fileInfo ≠ none :=
        mt valueAt_eq_none_iff.mp (not_not_intro hmem)
      rw [Option.isSome_iff_ne_none.mpr hsome] at hhas
      have hrebuilt : rebuilt (events ++ [event]) = rebuilt events := by
        rw [rebuilt, hprocessed, rebuilt]
        simp [hhas]
      refine ⟨fun part => ?_, hnodup, hlast, fun part key => ?_⟩
      · rw [hprocessed, hrebuilt, keys_addFile, if_neg, h.keys]
        rintro ⟨rfl, hnot⟩
        exact hnot hmem
      · have hfirst : firstNaming events id ≠ none := by
          intro hnone
          have hvalue := h.first id.partitionId id
          rw [if_pos rfl, hnone, valueAt_eq_none_iff, ← h.keys] at hvalue
          exact hvalue hmem
        rw [hrebuilt, h.first, firstNaming_append hnaming]
        by_cases hid : id = key
        · subst hid
          obtain ⟨info', hinfo'⟩ := Option.ne_none_iff_exists'.mp hfirst
          simp [hinfo']
        · simp [hid]
    · have hnone := valueAt_eq_none_iff.mpr hmem
      rw [hnone] at hhas
      have hrebuilt : rebuilt (events ++ [event]) = (rebuilt events).handleEvent false event := by
        rw [rebuilt, hprocessed, rebuilt]
        simp [hhas]
      rw [handleEvent_of_some hnaming] at hrebuilt
      refine ⟨fun part => ?_, hnodup, hlast, fun part key => ?_⟩
      · rw [hprocessed, hrebuilt, keys_addFile, keys_addFile, h.keys]
      · rw [hrebuilt, valueAt_addFile, firstNaming_append hnaming, h.first]
        by_cases hid : id = key
        · subst hid
          have hfirst : firstNaming events id = none := by
            have hvalue := h.first id.partitionId id
            rwa [if_pos rfl, valueAt_eq_none_iff.mpr (h.keys _ ▸ hmem), eq_comm] at hvalue
          by_cases hpart : id.partitionId = part <;> simp [hpart, hfirst]
        · simp [hid]

theorem paired (events : List Event) : Paired events := by
  induction events using List.reverseRecOn with
  | nil =>
    refine ⟨fun _ => rfl, fun _ => List.nodup_nil, fun part key => ?_, fun part key => ?_⟩ <;>
      exact (ite_self none).symm
  | append_singleton events event ih => exact paired_append ih event

/-- The answers that a viewer is asked for; paths at any depth. -/
structure SameAnswers (t t' : FilesystemTree) (part : ℕ) (id : FileKey) : Prop where
  filePath : ∀ depth, (t.viewers part).getFilePath depth id = (t'.viewers part).getFilePath depth id
  dirPath : ∀ depth, (t.viewers part).getDirPath depth id = (t'.viewers part).getDirPath depth id
  parentId : (t.viewers part).getParentId id = (t'.viewers part).getParentId id
  namePrefix : (t.viewers part).getFileNamePrefix id = (t'.viewers part).getFileNamePrefix id
  extension : (t.viewers part).getFileExtension id = (t'.viewers part).getFileExtension id

/-- The last naming of every file says what the first one did. -/
def NamedAlike (events : List Event) : Prop :=
  ∀ id, lastNaming events id = firstNaming events id

theorem viewers_eq (h : NamedAlike events) (part : ℕ) :
    (processed events).viewers part = (rebuilt events).viewers part := by
  have hpaired := paired events
  refine congrArg FileSystemViewer.mk (eq_of_valueAt (hpaired.keys part) (hpaired.nodup part) ?_)
  intro key
  rw [hpaired.last, hpaired.first, h key]

/-- The rebuilt tree answers as the one in memory, names included, exactly when the last naming of
every file says what the first one did. -/
theorem sameAnswers_iff_namedAlike (events : List Event) :
    (∀ part id, SameAnswers (processed events) (rebuilt events) part id ∧
        ((processed events).viewers part).getFileName id =
          ((rebuilt events).viewers part).getFileName id) ↔ NamedAlike events := by
  constructor
  · intro hsame id
    obtain ⟨hanswers, hname⟩ := hsame id.partitionId id
    have hparent := hanswers.parentId
    have hpaired := paired events
    have hlast := hpaired.last id.partitionId id
    have hfirst := hpaired.first id.partitionId id
    rw [if_pos rfl] at hlast hfirst
    have hnone : lastNaming events id = none ↔ firstNaming events id = none := by
      rw [← hlast, ← hfirst, valueAt_eq_none_iff, valueAt_eq_none_iff, hpaired.keys]
    cases hl : lastNaming events id with
    | none => exact (hnone.mp hl).symm
    | some info =>
      cases hf : firstNaming events id with
      | none => exact absurd (hnone.mpr hf) (by simp [hl])
      | some info' =>
        rw [hl] at hlast
        rw [hf] at hfirst
        unfold FileSystemViewer.getFileName at hname
        unfold FileSystemViewer.getParentId at hparent
        rw [find_eq hlast, find_eq hfirst] at hname hparent
        cases info
        cases info'
        simp_all
  · intro h part id
    have heq := viewers_eq h part
    exact ⟨⟨fun _ => by rw [heq], fun _ => by rw [heq], by rw [heq], by rw [heq], by rw [heq]⟩,
      by rw [heq]⟩

/-- A file of the first partition is named in the root directory. -/
def named (id : ℕ) (name : String) : Event :=
  ⟨⟨0, 0⟩, .filesystemFileName ⟨⟨0, id, ⟨0, 0⟩⟩, ⟨0, 1, ⟨0, 0⟩⟩, name⟩⟩

/-- A file that is renamed has its new path in memory, and the old one in the rebuilt tree. -/
theorem renamed_differs :
    ((processed [named 1 "/", named 2 "a", named 2 "b"]).viewers 0).getFilePath 3 ⟨0, 2, 0⟩ =
        some ['/', 'b'] ∧
      ((rebuilt [named 1 "/", named 2 "a", named 2 "b"]).viewers 0).getFilePath 3 ⟨0, 2, 0⟩ =
        some ['/', 'a'] ∧
      ¬ SameAnswers (processed [named 1 "/", named 2 "a", named 2 "b"])
        (rebuilt [named 1 "/", named 2 "a", named 2 "b"]) 0 ⟨0, 2, 0⟩ := by
  refine ⟨by decide +kernel, by decide +kernel, fun h => ?_⟩
  exact absurd (h.filePath 3) (by decide +kernel)

end FilesystemTree

end Octf.Parser.v2
