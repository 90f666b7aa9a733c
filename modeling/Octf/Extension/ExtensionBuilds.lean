import Octf.Extension.ExtensionFiles

/-! Builds of extensions next to each other: the entry and the file of a live object are what the
object has made of them, as long as nobody removes or commits an extension by a name or an id that
another live object has. -/
namespace Octf.Extension
open Foundation

def Pc.Rewrites : Pc → Prop
  | .rewriteList _ => True
  | _ => False

namespace Storage

variable {P T O E : Type} [DecidableEq P] [DecidableEq T] [DecidableEq O]
  {setup : Setup P T O} {s s' : Storage P T O E} {o o' : O} {files : Bool}

/-- Who has a writer, and has not begun to remove its extension. -/
def Live (x : TraceExtensionLocal E) : Prop := x.writable = true ∧ x.withdrawn = false

instance (x : TraceExtensionLocal E) : Decidable (Live x) := inferInstanceAs (Decidable (_ ∧ _))

/-- A step that rewrites the list has a name that no other live object has, and a removal of a file
an id, if the files count. -/
def Spares (files : Bool) (pc : Pc) (removed : Bool) (x : TraceExtensionLocal E)
    (s : Storage P T O E) (x' : TraceExtensionLocal E) : Prop :=
  match pc with
  | .writeList _ | .setReady | .rewriteList _ => x'.extName ≠ x.extName
  | .removeFile _ => files = true → x'.hdr.id ≠ x.hdr.id ∨ s.Resists x.hdr.id removed = true
  | _ => True

instance (files : Bool) (pc : Pc) (removed : Bool) (x x' : TraceExtensionLocal E)
    (s : Storage P T O E) : Decidable (Spares files pc removed x s x') :=
  match pc with
  | .writeList _ | .setReady | .rewriteList _ => inferInstanceAs (Decidable (_ ≠ _))
  | .removeFile _ => inferInstanceAs (Decidable (_ → _))
  | .lockList _ | .readList | .lockExtension _ | .clear _ | .openWriter | .closeWriter | .release =>
    .isTrue trivial

def KeepsBuilds (files : Bool) (action : Action P T O E) (s : Storage P T O E) : Prop :=
  match action with
  | .advance t removed => ∀ call ∈ s.running t, ∀ o' ≠ call.1, Live (s.objects o') →
      Spares files call.2 removed (s.objects call.1) s (s.objects o')
  | _ => True

instance [Fintype O] (files : Bool) (action : Action P T O E) (s : Storage P T O E) :
    Decidable (KeepsBuilds files action s) :=
  match action with
  | .advance t removed => inferInstanceAs (Decidable (∀ call ∈ s.running t, ∀ o' ≠ call.1,
      Live (s.objects o') → Spares files call.2 removed (s.objects call.1) s (s.objects o')))
  | .construct _ _ | .write _ _ | .commit _ | .remove _ | .destroy _ | .die _ => .isTrue trivial

/-- The entry of an object's extension is the object's own header, and its file is in its place. -/
structure Kept (files : Bool) (s : Storage P T O E) (x : TraceExtensionLocal E) : Prop where
  entry : x.hdr ∈ s.list
  name : x.hdr.name = x.extName
  record : files = true → s.directory x.hdr.id = some x.inode

omit [DecidableEq P] [DecidableEq T] [DecidableEq O] in
theorem Kept.of_same {x : TraceExtensionLocal E} (h : Kept files s x)
    (hlist : s'.list = s.list) (hdirectory : s'.directory = s.directory) : Kept files s' x :=
  ⟨hlist ▸ h.entry, h.name, hdirectory ▸ h.record⟩

omit [DecidableEq P] [DecidableEq T] [DecidableEq O] in
theorem mem_markReady {name : String} {e : TraceExtensionHeader} {lst : List TraceExtensionHeader}
    (h : e ∈ lst) (hname : e.name ≠ name) : e ∈ markReady name lst := by
  induction lst with
  | nil => cases h
  | cons first lst ih =>
    unfold markReady
    rcases List.mem_cons.mp h with rfl | h
    · rw [if_neg hname]
      exact List.mem_cons_self
    · split_ifs
      · exact List.mem_cons_of_mem _ h
      · exact List.mem_cons_of_mem _ (ih h)

omit [DecidableEq P] [DecidableEq T] [DecidableEq O] in
/-- The only header of a name becomes ready. -/
theorem ready_mem_markReady {e : TraceExtensionHeader} {lst : List TraceExtensionHeader}
    (hunique : UniqueList lst) (h : e ∈ lst) {name : String} (hname : e.name = name) :
    { e with state := .READY } ∈ markReady name lst := by
  induction lst with
  | nil => cases h
  | cons first lst ih =>
    unfold markReady
    have hrest := List.pairwise_cons.mp hunique
    split_ifs with hfirst
    · rcases List.mem_cons.mp h with rfl | h
      · exact List.mem_cons_self
      · exact absurd (hfirst.trans hname.symm) (hrest.1 e h).1
    · rcases List.mem_cons.mp h with rfl | h
      · exact absurd hname hfirst
      · exact List.mem_cons_of_mem _ (ih hrest.2 h)

omit [DecidableEq P] [DecidableEq T] [DecidableEq O] in
/-- A file stays in the directory if another one is opened. -/
theorem openFile_directory {id i : ℕ} (n : ℕ) (h : s.directory id = some i) :
    (s.openFile n).2.directory id = some i := by
  unfold openFile
  cases hfile : s.directory n with
  | some i => exact h
  | none =>
    have hne : id ≠ n := by
      rintro rfl
      rw [hfile] at h
      cases h
    exact (Function.update_of_ne hne _ _).trans h

/-- The extensions of live objects are kept. -/
structure Intact (files : Bool) (s : Storage P T O E) : Prop where
  kept : ∀ o, Live (s.objects o) → Kept files s (s.objects o)
  removing : ∀ t o pc, s.running t = some (o, pc) → pc.Rewrites →
    (s.objects o).withdrawn = true

namespace Intact

omit [DecidableEq P] [DecidableEq T] [DecidableEq O] in
theorem init : (init : Storage P T O E).Intact files where
  kept _ h := by cases h.1
  removing _ _ _ h := by cases h

omit [DecidableEq P] in
/-- A step of the call of one object, which leaves the entries and files of the live others. -/
theorem of_object (h : s.Intact files) (hlocked : s.Locked setup) {x : TraceExtensionLocal E}
    {c : Option Pc} (hobjects : s'.objects = Function.update s.objects o x)
    (hrunning : s'.running =
      Function.update s.running (setup.thread o) (c.map fun pc => (o, pc)))
    (hothers : ∀ o' ≠ o, Live (s.objects o') → Kept files s (s.objects o') →
      Kept files s' (s.objects o'))
    (hx : Live x → Kept files s' x)
    (hremoving : ∀ pc ∈ c, pc.Rewrites → x.withdrawn = true) : s'.Intact files := by
  have hself : s'.objects o = x := by rw [hobjects, Function.update_self]
  have hother : ∀ o' ≠ o, s'.objects o' = s.objects o' := fun o' hne => by
    rw [hobjects, Function.update_of_ne hne]
  refine ⟨fun o' hlive => ?_, fun t o' pc hpc hpc' => ?_⟩
  · by_cases ho : o' = o
    · subst ho
      rw [hself] at hlive ⊢
      exact hx hlive
    · rw [hother o' ho] at hlive ⊢
      exact hothers o' ho hlive (h.kept o' hlive)
  · rcases hlocked.calls hrunning hpc with ⟨rfl, -, hmem⟩ | ⟨hpc, -, ho⟩
    · rw [hself]
      exact hremoving pc hmem hpc'
    · rw [hother o' ho]
      exact h.removing t o' pc hpc hpc'

omit [DecidableEq P] in
/-- A step that leaves the list, the files, and what a live object knows of its own. -/
theorem keeps (h : s.Intact files) (hlocked : s.Locked setup) {x : TraceExtensionLocal E}
    {c : Option Pc} (hobjects : s'.objects = Function.update s.objects o x)
    (hrunning : s'.running =
      Function.update s.running (setup.thread o) (c.map fun pc => (o, pc)))
    (hlist : s'.list = s.list) (hdirectory : s'.directory = s.directory)
    (hx : Live x → Live (s.objects o) ∧ x.hdr = (s.objects o).hdr ∧
      x.extName = (s.objects o).extName ∧ x.inode = (s.objects o).inode)
    (hremoving : ∀ pc ∈ c, pc.Rewrites → x.withdrawn = true) : s'.Intact files := by
  refine h.of_object hlocked hobjects hrunning (fun o' _ _ hkept => hkept.of_same hlist hdirectory)
    (fun hlive => ?_) hremoving
  obtain ⟨hbefore, hhdr, hname, hinode⟩ := hx hlive
  have hkept := (h.kept o hbefore).of_same hlist hdirectory
  refine ⟨hhdr ▸ hkept.entry, ?_, ?_⟩
  · rw [hhdr, hname, hkept.name]
  · rw [hhdr, hinode]
    exact hkept.record

omit [DecidableEq P] in
/-- A step that leaves the list, the files and the object. -/
theorem move (h : s.Intact files) (hlocked : s.Locked setup) {c : Option Pc}
    (hobjects : s'.objects = s.objects)
    (hrunning : s'.running =
      Function.update s.running (setup.thread o) (c.map fun pc => (o, pc)))
    (hlist : s'.list = s.list) (hdirectory : s'.directory = s.directory)
    (hremoving : ∀ pc ∈ c, pc.Rewrites → (s.objects o).withdrawn = true) : s'.Intact files :=
  h.keeps hlocked (x := s.objects o) (by rw [hobjects, Function.update_eq_self]) hrunning hlist
    hdirectory (fun hlive => ⟨hlive, rfl, rfl, rfl⟩) hremoving

theorem readList (h : s.Intact files) (hlocked : s.Locked setup)
    (hpc : s.running (setup.thread o) = some (o, .readList)) :
    (s.readList setup o).Intact files := by
  have hunwritten := hlocked.unwritten (hlocked.before _ o _ hpc trivial)
  have hnever : ∀ q : Prop, Live (s.objects o) → q := fun q hlive => by
    rw [hlive.1] at hunwritten
    cases hunwritten
  have hspec := readList_spec setup s o
  generalize s.readList setup o = s' at hspec
  cases hspec with
  | duplicate =>
    exact h.keeps (c := none) hlocked rfl rfl rfl rfl (fun hlive => by cases hlive.1) (by simp)
  | ready | busy =>
    exact h.keeps (c := none) hlocked rfl rfl rfl rfl (fun hlive => hnever _ ⟨hlive.1, hlive.2⟩)
      (by simp)
  | new | stale =>
    refine h.keeps (c := some (.lockExtension _)) hlocked rfl rfl rfl rfl
      (fun hlive => hnever _ ⟨hlive.1, hlive.2⟩) ?_
    rintro pc ⟨⟩ ⟨⟩
  | abandoned =>
    refine h.keeps (c := some (.clear _)) hlocked rfl rfl rfl rfl
      (fun hlive => hnever _ ⟨hlive.1, hlive.2⟩) ?_
    rintro pc ⟨⟩ ⟨⟩

omit [DecidableEq P] in
theorem clear (h : s.Intact files) (hlocked : s.Locked setup) (hfiled : s.Filed)
    {lst : List TraceExtensionHeader}
    (hpc : s.running (setup.thread o) = some (o, .clear lst)) :
    (s.clear setup o lst).Intact files := by
  obtain ⟨hobjects, hrunning, -, hlist, -⟩ := openFile_frame (s.objects o).hdr.id s
  have hunopened := hfiled.unopened _ o _ hpc trivial
  refine h.of_object (c := some (.writeList lst)) hlocked
    (hobjects.trans (Function.update_eq_self o _).symm) (congrArg (Function.update · _ _) hrunning)
    (fun o' _ _ hkept => ⟨hlist ▸ hkept.entry, hkept.name, fun hfiles => ?_⟩) (fun hlive => ?_) ?_
  · exact openFile_directory _ (hkept.record hfiles)
  · rw [hlive.1] at hunopened
    cases hunopened
  · rintro pc ⟨⟩ ⟨⟩

/-- The new list replaces an entry of the name of the object only. -/
theorem writeList (h : s.Intact files) (hsound : s.Sound setup) {removed : Bool}
    {lst : List TraceExtensionHeader}
    (hpc : s.running (setup.thread o) = some (o, .writeList lst))
    (hspares : ∀ o' ≠ o, Live (s.objects o') → (s.objects o').extName ≠ (s.objects o).extName) :
    (s.advance setup o (.writeList lst) removed).Intact files := by
  have hpending := hsound.transactional.pending _ o _ lst hpc rfl
  have hunopened := hsound.filed.unopened _ o _ hpc trivial
  refine h.of_object (c := some .openWriter) (x := s.objects o) hsound.locked
    (Function.update_eq_self _ _).symm rfl
    (fun o' hne hlive hkept => ⟨?_, hkept.name, hkept.record⟩) (fun hlive => ?_) ?_
  · change (s.objects o').hdr ∈ lst
    rw [hpending.lst]
    refine mem_store.mpr (Or.inr ⟨hkept.entry, ?_⟩)
    rw [hkept.name, hpending.hdr]
    exact hspares o' hne hlive
  · rw [hlive.1] at hunopened
    cases hunopened
  · rintro pc ⟨⟩ ⟨⟩

omit [DecidableEq P] in
/-- The object becomes live with the entry that it has written and the file that it has cleared. -/
theorem openWriter (h : s.Intact files) (hsound : s.Sound setup)
    (hpc : s.running (setup.thread o) = some (o, .openWriter)) :
    (s.openWriter setup o).Intact files := by
  obtain ⟨hobjects, hrunning, -, hlist, -⟩ := openFile_frame (s.objects o).hdr.id s
  obtain ⟨hentry, hhdr⟩ := hsound.transactional.written _ o hpc
  obtain ⟨i, hi, -⟩ := hsound.filed.cleared _ o _ hpc trivial
  have hopen : s.openFile (s.objects o).hdr.id = (i, s) := by
    unfold openFile
    rw [hi]
  refine h.of_object (c := none) (x := { s.objects o with
    writable := true, isOpen := true, inode := (s.openFile (s.objects o).hdr.id).1, written := [],
    withdrawn := false }) hsound.locked ?_ (congrArg (Function.update · _ _) hrunning)
    (fun o' _ _ hkept => ⟨hlist ▸ hkept.entry, hkept.name, fun hfiles => ?_⟩)
    (fun _ => ⟨hlist ▸ hentry, ?_, fun _ => ?_⟩) (by simp)
  · change Function.update _ o _ = _
    rw [hobjects]
  · exact openFile_directory _ (hkept.record hfiles)
  · change (s.objects o).hdr.name = (s.objects o).extName
    rw [hhdr]
    rfl
  · change (s.openFile (s.objects o).hdr.id).2.directory (s.objects o).hdr.id = _
    rw [hopen, hi]

omit [DecidableEq P] in
theorem setReady (h : s.Intact files) (hlocked : s.Locked setup)
    (hspares : ∀ o' ≠ o, Live (s.objects o') → (s.objects o').extName ≠ (s.objects o).extName) :
    (s.setReady setup o).Intact files := by
  unfold Storage.setReady
  dsimp only
  split_ifs
  · refine h.of_object (c := none)
      (x := { s.objects o with hdr := { (s.objects o).hdr with state := .READY } }) hlocked rfl rfl
      (fun o' hne hlive hkept => ⟨?_, hkept.name, hkept.record⟩) (fun hlive => ?_) (by simp)
    · exact mem_markReady hkept.entry (hkept.name ▸ hspares o' hne hlive)
    · have hkept := h.kept o hlive
      exact ⟨ready_mem_markReady hlocked.list hkept.entry hkept.name, hkept.name, hkept.record⟩
  · exact h.move (o := o) (c := none) hlocked rfl rfl rfl rfl (by simp)

omit [DecidableEq P] in
theorem removeFile (h : s.Intact files) (hlocked : s.Locked setup) {op : ListOperation}
    {removed : Bool}
    (hspares : ∀ o' ≠ o, Live (s.objects o') → files = true →
      (s.objects o').hdr.id ≠ (s.objects o).hdr.id ∨
        s.Resists (s.objects o).hdr.id removed = true) :
    (s.removeFile setup o op removed).Intact files := by
  refine h.of_object (c := some (.rewriteList op)) (x := { s.objects o with withdrawn := true })
    hlocked rfl rfl (fun o' hne hlive hkept => ⟨hkept.entry, hkept.name, fun hfiles => ?_⟩)
    (fun hlive => by cases hlive.2) ?_
  · change (if s.Resists (s.objects o).hdr.id removed = true then s.directory
      else Function.update s.directory (s.objects o).hdr.id none) (s.objects o').hdr.id = _
    split_ifs with hresists
    · exact hkept.record hfiles
    · rcases hspares o' hne hlive hfiles with hid | hid
      · rw [Function.update_of_ne hid, hkept.record hfiles]
      · exact absurd hid hresists
  · rintro pc ⟨⟩ -
    rfl

omit [DecidableEq P] in
/-- The list loses no entry of another live object. -/
theorem rewriteList (h : s.Intact files) (hlocked : s.Locked setup) {op : ListOperation}
    (hpc : s.running (setup.thread o) = some (o, .rewriteList op))
    (hspares : ∀ o' ≠ o, Live (s.objects o') → (s.objects o').extName ≠ (s.objects o).extName) :
    (s.rewriteList setup o op).Intact files := by
  have hwithdrawn := h.removing _ o _ hpc trivial
  have hfilter : ∀ o' ≠ o, Live (s.objects o') → Kept files s (s.objects o') →
      (s.objects o').hdr ∈ s.list.filter fun extHdr => extHdr.name ≠ (s.objects o).extName := by
    intro o' hne hlive hkept
    refine List.mem_filter.mpr ⟨hkept.entry, decide_eq_true ?_⟩
    rw [hkept.name]
    exact hspares o' hne hlive
  have hgone : ¬ Live (s.objects o) := fun hlive => by
    rw [hlive.2] at hwithdrawn
    cases hwithdrawn
  unfold Storage.rewriteList
  dsimp only
  split_ifs
  · refine h.of_object (c := some .release) (x := s.objects o) hlocked
      (Function.update_eq_self _ _).symm rfl
      (fun o' hne hlive hkept => ⟨hfilter o' hne hlive hkept, hkept.name, hkept.record⟩)
      (fun hlive => absurd hlive hgone) ?_
    rintro pc ⟨⟩ ⟨⟩
  · exact h.of_object (c := none) (x := s.objects o) hlocked (Function.update_eq_self _ _).symm rfl
      (fun o' hne hlive hkept => ⟨hfilter o' hne hlive hkept, hkept.name, hkept.record⟩)
      (fun hlive => absurd hlive hgone) (by simp)

theorem advance (h : s.Intact files) (hsound : s.Sound setup) {pc : Pc} {removed : Bool}
    (hpc : s.running (setup.thread o) = some (o, pc))
    (hspares : ∀ o' ≠ o, Live (s.objects o') →
      Spares files pc removed (s.objects o) s (s.objects o')) :
    (s.advance setup o pc removed).Intact files := by
  have hlocked := hsound.locked
  have hsame : Live (s.objects o) → Live (s.objects o) ∧ (s.objects o).hdr = (s.objects o).hdr ∧
      (s.objects o).extName = (s.objects o).extName ∧
      (s.objects o).inode = (s.objects o).inode := fun hlive => ⟨hlive, rfl, rfl, rfl⟩
  cases pc with
  | lockList op =>
    unfold Storage.advance
    dsimp only
    split
    · exact h
    · refine h.move hlocked (c := some _) rfl rfl rfl rfl ?_
      rintro pc ⟨⟩ hrewrites
      cases op <;> cases hrewrites
  | readList => exact h.readList hlocked hpc
  | lockExtension lst =>
    change (s.lockExtension setup o lst).Intact files
    unfold Storage.lockExtension
    dsimp only
    split_ifs
    · refine h.keeps (c := some (.clear lst)) hlocked rfl rfl rfl rfl hsame ?_
      rintro pc ⟨⟩ ⟨⟩
    · exact h
  | clear lst => exact h.clear hlocked hsound.filed hpc
  | writeList lst => exact h.writeList hsound hpc hspares
  | openWriter => exact h.openWriter hsound hpc
  | closeWriter =>
    change (s.closeWriter setup o).Intact files
    unfold Storage.closeWriter
    dsimp only
    split_ifs
    · refine h.keeps (x := { s.objects o with isOpen := false }) (c := some (.lockList .commit))
        hlocked rfl rfl rfl rfl hsame ?_
      rintro pc ⟨⟩ ⟨⟩
    · exact h.move (o := o) (c := none) hlocked rfl rfl rfl rfl (by simp)
  | setReady => exact h.setReady hlocked hspares
  | removeFile op => exact h.removeFile hlocked hspares
  | rewriteList op => exact h.rewriteList hlocked hpc hspares
  | release =>
    obtain ⟨hobjects, hrunning, hlist, -, hdirectory, -⟩ := release_frame setup o s
    exact h.keeps (c := none) hlocked hobjects hrunning hlist hdirectory
      (fun hlive => by cases hlive.1) (by simp)

omit [DecidableEq T] [DecidableEq O] in
theorem die (h : s.Intact files) (hlocked : s.Locked setup) (p : P) :
    (s.die setup p).Intact files := by
  refine ⟨fun o hlive => ?_, fun t o pc hpc => ?_⟩
  · by_cases hp : setup.processOf o = p
    · have habsent : (s.die setup p).objects o = .absent E := if_pos hp
      rw [habsent] at hlive
      cases hlive.1
    · have hsame : (s.die setup p).objects o = s.objects o := if_neg hp
      rw [hsame] at hlive ⊢
      exact (h.kept o hlive).of_same rfl rfl
  · obtain ⟨hpc, -, hsame⟩ := hlocked.survives hpc
    rw [hsame]
    exact h.removing t o pc hpc

theorem step (h : s.Intact files) (hsound : s.Sound setup) {action : Action P T O E}
    (hkeeps : KeepsBuilds files action s) : (s.step setup action).Intact files := by
  have hlocked := hsound.locked
  have hbegins : ∀ (o : O) (pc : Pc), ¬ pc.Rewrites →
      (s.goTo (setup.thread o) o pc).Intact files := by
    intro o c hrewrites
    refine h.move hlocked (c := some c) rfl rfl rfl rfl ?_
    rintro pc ⟨⟩ hpc
    exact absurd hpc hrewrites
  have hsteps := hlocked.steps action
  generalize s.step setup action = s' at hsteps
  cases hsteps with
  | construct o extName =>
    refine h.keeps hlocked (c := some (.lockList .construct)) rfl rfl rfl rfl
      (fun hlive => by cases hlive.1) ?_
    rintro pc ⟨⟩ ⟨⟩
  | write o record hidle =>
    refine h.keeps hlocked (o := o) (c := none) rfl ?_ rfl rfl
      (fun hlive => ⟨hlive, rfl, rfl, rfl⟩) (by simp)
    exact (Function.update_eq_self_iff.mpr hidle.1.symm).symm
  | commit o => exact hbegins o .closeWriter id
  | remove o => exact hbegins o (.lockList .remove) id
  | destroy o => exact hbegins o (.lockList .destroy) id
  | release o => exact hbegins o .release id
  | advance o pc removed hpc =>
    exact h.advance hsound hpc fun o' hne hlive => hkeeps (o, pc) hpc o' hne hlive
  | die p => exact h.die hlocked p
  | stay => exact h

end Intact

/-- No live object's entry or file is touched by another one, and its commits succeed. -/
structure Undisturbed (setup : Setup P T O) (s : Storage P T O E) (o : O) : Prop where
  entry : (s.objects o).hdr ∈ s.list
  name : (s.objects o).hdr.name = (s.objects o).extName
  record : s.directory (s.objects o).hdr.id = some (s.objects o).inode
  contents : s.inodes (s.objects o).inode = ⟨(s.objects o).written, !(s.objects o).isOpen⟩
  commit : ((s.setReady setup o).objects o).hdr.state = .READY

omit [DecidableEq P] in
theorem Intact.undisturbed (h : s.Intact true) (hfiled : s.Filed) (hlive : Live (s.objects o)) :
    s.Undisturbed setup o := by
  obtain ⟨hentry, hname, hrecord⟩ := h.kept o hlive
  refine ⟨hentry, hname, hrecord rfl, hfiled.contents o hlive.1, ?_⟩
  have hfound : (s.list.any fun extHdr => extHdr.name = (s.objects o).extName) = true :=
    List.any_eq_true.mpr ⟨(s.objects o).hdr, hentry, decide_eq_true hname⟩
  unfold Storage.setReady
  dsimp only
  rw [if_pos hfound]
  change (Function.update s.objects o _ o).hdr.state = _
  rw [Function.update_self]

/-- In a run whose steps spare the others, no live object is disturbed. -/
theorem run_undisturbed (setup : Setup P T O) (actions : List (Action P T O E))
    (h : Meets (step setup) (fun action s => KeepsLocks setup action s ∧ KeepsBuilds true action s)
      actions init) (o : O) (hlive : Live ((run (step setup) actions init).objects o)) :
    (run (step setup) actions init).Undisturbed setup o := by
  have hinvariant := run_invariant (P := fun s => Sound setup s ∧ Intact true s)
    (fun _ _ hkeeps hs => ⟨hs.1.step hkeeps.1, hs.2.step hs.1 hkeeps.2⟩) h ⟨Sound.init, Intact.init⟩
  exact hinvariant.2.undisturbed hinvariant.1.filed hlive

/-- The object that has committed an extension is not disturbed by the one that looks for it. -/
theorem buildsWatched_undisturbed :
    (run (step (twoProcesses fun _ => "21.6")) (buildsWatched.take 15) init).Undisturbed
      (twoProcesses fun _ => "21.6") false :=
  run_undisturbed (twoProcesses fun _ => "21.6") (buildsWatched.take 15) (by decide +kernel) false
    (by decide +kernel)

/-- A cancelled parse removes its extension, and again when it is destroyed; meanwhile another
process builds one of the same name. -/
def removesTwice : List (Action ℕ ℕ ℕ ℕ) :=
  constructs 0 "io" 6 ++ constructs 1 "lru" 6 ++ .remove 0 :: List.replicate 3 (.advance 0 true) ++
    constructs 2 "io" 6 ++ .destroy 0 :: List.replicate 4 (.advance 0 true)

theorem removesTwice_disturbs :
    Live ((run (step (manyProcesses fun _ => "21.6")) removesTwice init).objects 2) ∧
      ¬ (run (step (manyProcesses fun _ => "21.6")) removesTwice init).Undisturbed
        (manyProcesses fun _ => "21.6") 2 := by
  refine ⟨by decide +kernel, fun h => ?_⟩
  have hgone : ((run (step (manyProcesses fun _ => "21.6")) removesTwice init).objects 2).hdr ∉
      (run (step (manyProcesses fun _ => "21.6")) removesTwice init).list := by
    decide +kernel
  exact hgone h.entry

end Storage

end Octf.Extension
