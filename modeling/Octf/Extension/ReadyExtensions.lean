import Octf.Extension.ExtensionFiles

/-! Extensions that are ready: their files hold what their last commit has written, as long as no
process dies between a file and its entry in the list, and nobody commits or removes an extension
whose name has got another id. -/
namespace Octf.Extension
open Foundation

/-- A commit that has found its writer. -/
def Pc.Commits : Pc → Prop
  | .closeWriter | .lockList .commit | .setReady => True
  | _ => False

/-- A file has been cleared or removed, and the list has not been written. -/
def Pc.Rewriting : Pc → Prop
  | .writeList _ | .rewriteList _ => True
  | _ => False

namespace Storage

variable {P T O E : Type} [DecidableEq P] [DecidableEq T] [DecidableEq O]
  {setup : Setup P T O} {s s' : Storage P T O E} {o o' : O} {e : TraceExtensionHeader}

/-- A process takes the extension as it is if it is ready. -/
def Opens (setup : Setup P T O) (e : TraceExtensionHeader) : Prop :=
  e.state = .READY ∧ ∃ p, setup.version p = e.version

/-- The file holds what the last commit of the extension has written. -/
def Complete (s : Storage P T O E) (e : TraceExtensionHeader) : Prop :=
  ∃ inode, s.directory e.id = some inode ∧ s.inodes inode = ⟨s.committed e.name, true⟩

instance [Fintype P] (setup : Setup P T O) (e : TraceExtensionHeader) :
    Decidable (Opens setup e) := inferInstanceAs (Decidable (_ ∧ _))

/-- Some process takes the extension as it is, or an object has its writer. -/
def Needed (setup : Setup P T O) (s : Storage P T O E) (e : TraceExtensionHeader) : Prop :=
  Opens setup e ∨ ∃ o, (s.objects o).writable = true ∧ (s.objects o).hdr.id = e.id

instance [Fintype P] [Fintype O] (setup : Setup P T O) (s : Storage P T O E)
    (e : TraceExtensionHeader) : Decidable (Needed setup s e) := inferInstanceAs (Decidable (_ ∨ _))

/-- A commit meets an entry of its name only if it has its id, a removal of a file a needed entry of
its id only if it has its name. -/
def MeetsOwn (setup : Setup P T O) (pc : Pc) (removed : Bool) (x : TraceExtensionLocal E)
    (s : Storage P T O E) : Prop :=
  match pc with
  | .setReady => ∀ e ∈ s.list, e.name = x.extName → e.id = x.hdr.id
  | .removeFile _ => s.Resists x.hdr.id removed = false →
      ∀ e ∈ s.list, e.id = x.hdr.id → Needed setup s e → e.name = x.extName
  | _ => True

/-- The death of a process leaves no needed entry without its file. -/
def LosesNone (setup : Setup P T O) (p : P) (pc : Pc) (x : TraceExtensionLocal E)
    (s : Storage P T O E) : Prop :=
  match pc with
  | .writeList _ => ∀ e ∈ s.list, e.id = x.hdr.id → ¬ Opens setup e
  | .rewriteList _ => ∀ e ∈ s.list, e.id = x.hdr.id → s.directory e.id = none → ¬ Opens setup e ∧
      ∀ o, (s.objects o).writable = true → (s.objects o).hdr.id = e.id → setup.processOf o = p
  | _ => True

def KeepsReady (setup : Setup P T O) (action : Action P T O E) (s : Storage P T O E) : Prop :=
  match action with
  | .advance t removed =>
    ∀ call ∈ s.running t, MeetsOwn setup call.2 removed (s.objects call.1) s
  | .die p => ∀ t, setup.process t = p →
      ∀ call ∈ s.running t, LosesNone setup p call.2 (s.objects call.1) s
  | _ => True

section Decidable
variable [Fintype P] [Fintype O] (setup : Setup P T O) (x : TraceExtensionLocal E)
  (s : Storage P T O E)

instance (pc : Pc) (removed : Bool) : Decidable (MeetsOwn setup pc removed x s) :=
  match pc with
  | .setReady => inferInstanceAs (Decidable (∀ e ∈ s.list, e.name = x.extName → e.id = x.hdr.id))
  | .removeFile _ => inferInstanceAs (Decidable (s.Resists x.hdr.id removed = false →
      ∀ e ∈ s.list, e.id = x.hdr.id → Needed setup s e → e.name = x.extName))
  | .lockList _ | .readList | .lockExtension _ | .clear _ | .writeList _ | .openWriter
  | .closeWriter | .rewriteList _ | .release => .isTrue trivial

instance (p : P) (pc : Pc) : Decidable (LosesNone setup p pc x s) :=
  match pc with
  | .writeList _ =>
    inferInstanceAs (Decidable (∀ e ∈ s.list, e.id = x.hdr.id → ¬ Opens setup e))
  | .rewriteList _ => inferInstanceAs (Decidable (∀ e ∈ s.list, e.id = x.hdr.id →
      s.directory e.id = none → ¬ Opens setup e ∧ ∀ o, (s.objects o).writable = true →
        (s.objects o).hdr.id = e.id → setup.processOf o = p))
  | .lockList _ | .readList | .lockExtension _ | .clear _ | .openWriter | .closeWriter
  | .setReady | .removeFile _ | .release => .isTrue trivial

instance [Fintype T] (action : Action P T O E) : Decidable (KeepsReady setup action s) :=
  match action with
  | .advance t removed => inferInstanceAs (Decidable (∀ call ∈ s.running t,
      MeetsOwn setup call.2 removed (s.objects call.1) s))
  | .die p => inferInstanceAs (Decidable (∀ t, setup.process t = p → ∀ call ∈ s.running t,
      LosesNone setup p call.2 (s.objects call.1) s))
  | .construct _ _ | .write _ _ | .commit _ | .remove _ | .destroy _ => .isTrue trivial

end Decidable

/-- The file of an entry has just been cleared. -/
def Cleared (s : Storage P T O E) (e : TraceExtensionHeader) : Prop :=
  ∃ t o lst, s.running t = some (o, .writeList lst) ∧ (s.objects o).hdr.id = e.id

/-- The file of an entry has just been removed. -/
def Removed (s : Storage P T O E) (e : TraceExtensionHeader) : Prop :=
  s.directory e.id = none ∧ ∃ t o op, s.running t = some (o, .rewriteList op) ∧
    (s.objects o).hdr.id = e.id ∧ (s.objects o).extName = e.name

structure ReadyFiles (setup : Setup P T O) (s : Storage P T O E) : Prop where
  ready : ∀ e ∈ s.list, Opens setup e → Cleared s e ∨ Removed s e ∨ Complete s e
  present : ∀ o, (s.objects o).writable = true → ∀ e ∈ s.list, e.id = (s.objects o).hdr.id →
    s.directory e.id = none → Removed s e
  unready : ∀ o, (s.objects o).isOpen = true → ∀ e ∈ s.list, e.id = (s.objects o).hdr.id →
    e.state ≠ .READY
  committing : ∀ t o pc, s.running t = some (o, pc) → pc.Commits →
    (s.objects o).writable = true ∧ (pc ≠ .closeWriter → (s.objects o).isOpen = false)

namespace ReadyFiles

omit [DecidableEq P] [DecidableEq T] [DecidableEq O] in
theorem init : (init : Storage P T O E).ReadyFiles setup where
  ready _ h := by cases h
  present _ h := by cases h
  unready _ h := by cases h
  committing _ _ _ h := by cases h

/-- The calls of the other threads go on where they are. -/
structure Aside (setup : Setup P T O) (o : O) (s s' : Storage P T O E) : Prop where
  objects : ∀ o' ≠ o, s'.objects o' = s.objects o'
  running : ∀ t ≠ setup.thread o, s'.running t = s.running t
  own : ∀ o' pc, s.running (setup.thread o) = some (o', pc) → ¬ pc.Rewriting

omit [DecidableEq P] [DecidableEq T] [DecidableEq O] in
theorem Aside.cleared (h : Aside setup o s s') (hlocked : s.Locked setup) (hcleared : Cleared s e) :
    Cleared s' e := by
  obtain ⟨t, o', lst, hpc, hid⟩ := hcleared
  have ht : t ≠ setup.thread o := by
    rintro rfl
    exact h.own o' _ hpc trivial
  have ho : o' ≠ o := by
    rintro rfl
    exact ht (hlocked.thread t o' _ hpc).symm
  exact ⟨t, o', lst, (h.running t ht).trans hpc, by rw [h.objects o' ho, hid]⟩

omit [DecidableEq P] [DecidableEq T] [DecidableEq O] in
theorem Aside.removed (h : Aside setup o s s') (hlocked : s.Locked setup) (hremoved : Removed s e)
    (hdirectory : s'.directory e.id = none) : Removed s' e := by
  obtain ⟨-, t, o', op, hpc, hid, hname⟩ := hremoved
  have ht : t ≠ setup.thread o := by
    rintro rfl
    exact h.own o' _ hpc trivial
  have ho : o' ≠ o := by
    rintro rfl
    exact ht (hlocked.thread t o' _ hpc).symm
  exact ⟨hdirectory, t, o', op, (h.running t ht).trans hpc, by rw [h.objects o' ho, hid],
    by rw [h.objects o' ho, hname]⟩

omit [DecidableEq P] [DecidableEq T] [DecidableEq O] in
/-- While a call is inside the list, no other one has cleared or removed a file. -/
theorem alone (hlist : s.Transactional setup) {pc : Pc}
    (hpc : s.running (setup.thread o) = some (o, pc)) (hcritical : pc.Critical) :
    (∀ e, Cleared s e → (∃ lst, pc = .writeList lst) ∧ (s.objects o).hdr.id = e.id) ∧
    ∀ e, Removed s e → (∃ op, pc = .rewriteList op) ∧ (s.objects o).hdr.id = e.id ∧
      (s.objects o).extName = e.name := by
  have hown := hlist.critical _ o pc hpc hcritical
  refine ⟨fun e hcleared => ?_, fun e hremoved => ?_⟩
  · obtain ⟨t, o', lst, hpc', hid⟩ := hcleared
    obtain rfl := Option.some.inj ((hlist.critical t o' _ hpc' trivial).symm.trans hown)
    obtain ⟨rfl, rfl⟩ := Prod.mk.inj (Option.some.inj (hpc'.symm.trans hpc))
    exact ⟨⟨lst, rfl⟩, hid⟩
  · obtain ⟨-, t, o', op, hpc', hid, hname⟩ := hremoved
    obtain rfl := Option.some.inj ((hlist.critical t o' _ hpc' trivial).symm.trans hown)
    obtain ⟨rfl, rfl⟩ := Prod.mk.inj (Option.some.inj (hpc'.symm.trans hpc))
    exact ⟨⟨op, rfl⟩, hid, hname⟩

omit [DecidableEq P] [DecidableEq T] [DecidableEq O] in
theorem not_cleared (hlist : s.Transactional setup) {pc : Pc}
    (hpc : s.running (setup.thread o) = some (o, pc)) (hcritical : pc.Critical)
    (hne : ∀ lst, pc ≠ .writeList lst) (e : TraceExtensionHeader) : ¬ Cleared s e := by
  intro hcleared
  obtain ⟨⟨lst, heq⟩, -⟩ := (alone hlist hpc hcritical).1 e hcleared
  exact hne lst heq

omit [DecidableEq P] [DecidableEq T] [DecidableEq O] in
theorem not_removed (hlist : s.Transactional setup) {pc : Pc}
    (hpc : s.running (setup.thread o) = some (o, pc)) (hcritical : pc.Critical)
    (hne : ∀ op, pc ≠ .rewriteList op) (e : TraceExtensionHeader) : ¬ Removed s e := by
  intro hremoved
  obtain ⟨⟨op, heq⟩, -⟩ := (alone hlist hpc hcritical).2 e hremoved
  exact hne op heq

omit [DecidableEq P] in
/-- A step outside the list: it writes at most the file that its object is still writing. -/
theorem quiet (h : s.ReadyFiles setup) (hlocked : s.Locked setup) (hfiled : s.Filed)
    {x : TraceExtensionLocal E} {c : Option Pc}
    (hobjects : s'.objects = Function.update s.objects o x)
    (hrunning : s'.running =
      Function.update s.running (setup.thread o) (c.map fun pc => (o, pc)))
    (hown : ∀ o' pc, s.running (setup.thread o) = some (o', pc) → ¬ pc.Rewriting)
    (hlist : s'.list = s.list) (hdirectory : s'.directory = s.directory)
    (hcommitted : s'.committed = s.committed)
    (hinodes : ∀ i, ((s.objects o).isOpen = true → i ≠ (s.objects o).inode) →
      s'.inodes i = s.inodes i)
    (hwritable : x.writable = true → (s.objects o).writable = true ∧
      x.hdr.id = (s.objects o).hdr.id)
    (hopen : x.isOpen = true → (s.objects o).isOpen = true ∧ x.hdr.id = (s.objects o).hdr.id)
    (hcommitting : ∀ pc ∈ c, pc.Commits →
      x.writable = true ∧ (pc ≠ .closeWriter → x.isOpen = false)) : s'.ReadyFiles setup := by
  have haside : Aside setup o s s' := by
    refine ⟨fun o' hne => by rw [hobjects, Function.update_of_ne hne], fun t ht => ?_, hown⟩
    rw [hrunning, Function.update_of_ne ht]
  have hself : s'.objects o = x := by rw [hobjects, Function.update_self]
  refine ⟨fun e he hopens => ?_, fun o' hwrite e he hid hnone => ?_, fun o' hisOpen e he hid => ?_,
    fun t o' pc hpc hpc' => ?_⟩
  · rw [hlist] at he
    rcases h.ready e he hopens with hcleared | hremoved | ⟨i, hi, hcontents⟩
    · exact Or.inl (haside.cleared hlocked hcleared)
    · exact Or.inr (Or.inl (haside.removed hlocked hremoved (hdirectory ▸ hremoved.1)))
    · refine Or.inr (Or.inr ⟨i, hdirectory ▸ hi, ?_⟩)
      rw [hinodes i fun hisOpen heq => ?_, hcommitted]
      · exact hcontents
      · have hid := hfiled.own o (hfiled.opened o hisOpen) e.id (heq ▸ hi)
        exact h.unready o hisOpen e he hid hopens.1
  · rw [hlist] at he
    have hbefore : (s.objects o').writable = true ∧ e.id = (s.objects o').hdr.id := by
      by_cases ho : o' = o
      · subst ho
        rw [hself] at hwrite hid
        exact ⟨(hwritable hwrite).1, hid.trans (hwritable hwrite).2⟩
      · rw [haside.objects o' ho] at hwrite hid
        exact ⟨hwrite, hid⟩
    have hremoved := h.present o' hbefore.1 e he hbefore.2 (hdirectory ▸ hnone)
    exact haside.removed hlocked hremoved hnone
  · rw [hlist] at he
    by_cases ho : o' = o
    · subst ho
      rw [hself] at hisOpen hid
      exact h.unready o' (hopen hisOpen).1 e he (hid.trans (hopen hisOpen).2)
    · rw [haside.objects o' ho] at hisOpen hid
      exact h.unready o' hisOpen e he hid
  · rcases hlocked.calls hrunning hpc with ⟨rfl, -, hmem⟩ | ⟨hpc, -, ho⟩
    · rw [hself]
      exact hcommitting pc hmem hpc'
    · rw [haside.objects o' ho]
      exact h.committing t o' pc hpc hpc'

omit [DecidableEq P] in
/-- A step that leaves the files, the list and the object. -/
theorem move (h : s.ReadyFiles setup) (hlocked : s.Locked setup) (hfiled : s.Filed) {c : Option Pc}
    (hobjects : s'.objects = s.objects)
    (hrunning : s'.running =
      Function.update s.running (setup.thread o) (c.map fun pc => (o, pc)))
    (hown : ∀ o' pc, s.running (setup.thread o) = some (o', pc) → ¬ pc.Rewriting)
    (hlist : s'.list = s.list) (hdirectory : s'.directory = s.directory)
    (hcommitted : s'.committed = s.committed) (hinodes : s'.inodes = s.inodes)
    (hcommitting : ∀ pc ∈ c, pc.Commits → (s.objects o).writable = true ∧
      (pc ≠ .closeWriter → (s.objects o).isOpen = false)) : s'.ReadyFiles setup :=
  h.quiet hlocked hfiled (x := s.objects o) (by rw [hobjects, Function.update_eq_self])
    hrunning hown
    hlist hdirectory hcommitted (fun i _ => by rw [hinodes]) (fun hwrite => ⟨hwrite, rfl⟩)
    (fun hopen => ⟨hopen, rfl⟩) hcommitting

omit [DecidableEq P] [DecidableEq T] [DecidableEq O] in
/-- Opening a file leaves those of the directory as they are. -/
theorem openFile_inodes (hfiled : s.Filed) {id i : ℕ} (n : ℕ) (hi : s.directory id = some i) :
    (s.openFile n).2.directory id = some i ∧ (s.openFile n).2.inodes i = s.inodes i := by
  unfold openFile
  cases hfile : s.directory n with
  | some i => exact ⟨hi, rfl⟩
  | none =>
    have hne : id ≠ n := by
      rintro rfl
      rw [hfile] at hi
      cases hi
    exact ⟨(Function.update_of_ne hne _ _).trans hi,
      Function.update_of_ne (hfiled.bound id i hi).ne _ _⟩

omit [DecidableEq P] [DecidableEq O] in
theorem clear (h : s.ReadyFiles setup) (hsound : s.Sound setup) {lst : List TraceExtensionHeader}
    (hpc : s.running (setup.thread o) = some (o, .clear lst)) :
    (s.clear setup o lst).ReadyFiles setup := by
  obtain ⟨hlocked, hlist, hfiled⟩ := hsound
  have hlock := hlocked.within _ o _ hpc trivial
  have hunopened := hfiled.unopened _ o _ hpc trivial
  obtain ⟨hopened, hfile, -⟩ := hfiled.open' (s.objects o).hdr.id fun o' hwrite hid => by
    obtain rfl := hlocked.unique (hlocked.writable o' hwrite) hlock hid
    rw [hwrite] at hunopened
    cases hunopened
  have hnocleared := not_cleared hlist hpc trivial (by simp)
  have hnoremoved := not_removed hlist hpc trivial (by simp)
  obtain ⟨hobjects, hrunning, -, hlst, -⟩ := openFile_frame (s.objects o).hdr.id s
  have hcommitted : (s.openFile (s.objects o).hdr.id).2.committed = s.committed := by
    unfold openFile
    cases s.directory (s.objects o).hdr.id <;> rfl
  have hobject : (s.clear setup o lst).objects = s.objects := hobjects
  have hrun : (s.clear setup o lst).running =
      Function.update s.running (setup.thread o) (some (o, .writeList lst)) :=
    congrArg (Function.update · _ _) hrunning
  have hentries : (s.clear setup o lst).list = s.list := hlst
  refine ⟨fun e he hopens => ?_, fun o' hwrite e he hid hnone => ?_, fun o' hisOpen e he hid => ?_,
    fun t o' pc hpc' hpc'' => ?_⟩
  · rw [hentries] at he
    by_cases hid : e.id = (s.objects o).hdr.id
    · refine Or.inl ⟨setup.thread o, o, lst, ?_, ?_⟩
      · rw [hrun, Function.update_self]
      · rw [hobject, hid]
    · rcases h.ready e he hopens with hcleared | hremoved | ⟨i, hi, hcontents⟩
      · exact absurd hcleared (hnocleared e)
      · exact absurd hremoved (hnoremoved e)
      · obtain ⟨hi', hsame⟩ := openFile_inodes hfiled (s.objects o).hdr.id hi
        have hne : i ≠ (s.openFile (s.objects o).hdr.id).1 := by
          rintro rfl
          exact hid (hopened.injective _ _ _ hi' hfile)
        refine Or.inr (Or.inr ⟨i, hi', ?_⟩)
        change Function.update (s.openFile (s.objects o).hdr.id).2.inodes _ _ i =
          ⟨(s.openFile (s.objects o).hdr.id).2.committed e.name, true⟩
        rw [Function.update_of_ne hne, hsame, hcommitted, hcontents]
  · rw [hentries] at he
    rw [hobject] at hwrite hid
    have hbefore : s.directory e.id = none := by
      cases hi : s.directory e.id with
      | none => rfl
      | some i =>
        have hi' := (openFile_inodes hfiled (s.objects o).hdr.id hi).1
        rw [show (s.openFile (s.objects o).hdr.id).2.directory e.id = none from hnone] at hi'
        cases hi'
    exact absurd (h.present o' hwrite e he hid hbefore) (hnoremoved e)
  · rw [hentries] at he
    rw [hobject] at hisOpen hid
    exact h.unready o' hisOpen e he hid
  · rw [hobject]
    rcases hlocked.calls (c := some (.writeList lst)) hrun hpc' with ⟨-, -, hmem⟩ | ⟨hpc', -, -⟩
    · cases Option.mem_some_iff.mp hmem
      cases hpc''
    · exact h.committing t o' pc hpc' hpc''

omit [DecidableEq P] [DecidableEq O] in
theorem writeList (h : s.ReadyFiles setup) (hsound : s.Sound setup)
    {lst : List TraceExtensionHeader} {s' : Storage P T O E}
    (hpc : s.running (setup.thread o) = some (o, .writeList lst))
    (hs' : s' = ({ s with list := lst }.goTo (setup.thread o) o .openWriter)) :
    s'.ReadyFiles setup := by
  obtain ⟨hlocked, hlist, hfiled⟩ := hsound
  have hlock := hlocked.within _ o _ hpc trivial
  have hunopened := hfiled.unopened _ o _ hpc trivial
  have hpending := hlist.pending _ o _ lst hpc rfl
  have hnone := not_removed hlist hpc trivial (by simp)
  subst hs'
  have hentry : ∀ e ∈ lst, e = (s.objects o).hdr ∨
      (e ∈ s.list ∧ e.name ≠ (s.objects o).hdr.name) := fun e he =>
    mem_store.mp (hpending.lst ▸ he)
  -- the entry that is replaced had the name and the id of the new one
  have hother : ∀ e ∈ s.list, e.name ≠ (s.objects o).hdr.name → e.id ≠ (s.objects o).hdr.id := by
    intro e he hname hid
    rcases hpending.found with hfresh | ⟨found, hfound, hid', hname', -⟩
    · exact (hfresh e he).1 hid
    · obtain rfl := hlocked.list.eq_of_id he hfound (hid.trans hid'.symm)
      refine hname (hname'.trans ?_)
      rw [hpending.hdr]
      rfl
  have hself : ∀ o', (s.objects o').writable = true →
      (s.objects o).hdr.id ≠ (s.objects o').hdr.id := by
    intro o' hwrite hid
    obtain rfl := hlocked.unique hlock (hlocked.writable o' hwrite) hid
    rw [hwrite] at hunopened
    cases hunopened
  refine ⟨fun e he hopens => ?_, fun o' hwrite e he hid hmissing => ?_,
    fun o' hisOpen e he hid => ?_,
    fun t o' pc hpc' hpc'' => ?_⟩
  · rcases hentry e he with rfl | ⟨he, hname⟩
    · have hstate := hopens.1
      rw [hpending.hdr] at hstate
      cases hstate
    · rcases h.ready e he hopens with hclear | hremoved | hcomplete
      · exact absurd ((alone hlist hpc trivial).1 e hclear).2.symm (hother e he hname)
      · exact absurd hremoved (hnone e)
      · exact Or.inr (Or.inr hcomplete)
  · rcases hentry e he with rfl | ⟨he, -⟩
    · exact absurd hid (hself o' hwrite)
    · exact absurd (h.present o' hwrite e he hid hmissing) (hnone e)
  · rcases hentry e he with rfl | ⟨he, -⟩
    · exact absurd hid (hself o' (hfiled.opened o' hisOpen))
    · exact h.unready o' hisOpen e he hid
  · rcases hlocked.calls (c := some .openWriter) rfl hpc' with ⟨-, -, hmem⟩ | ⟨hpc', -, -⟩
    · cases Option.mem_some_iff.mp hmem
      cases hpc''
    · exact h.committing t o' pc hpc' hpc''

omit [DecidableEq P] in
theorem openWriter (h : s.ReadyFiles setup) (hsound : s.Sound setup)
    (hpc : s.running (setup.thread o) = some (o, .openWriter)) :
    (s.openWriter setup o).ReadyFiles setup := by
  obtain ⟨hlocked, hlist, hfiled⟩ := hsound
  obtain ⟨i, hi, -, hdef⟩ := hfiled.openWriter_spec hpc
  obtain ⟨hentry, hhdr⟩ := hlist.written _ o hpc
  have hnocleared := not_cleared hlist hpc trivial (by simp)
  have hnone := not_removed hlist hpc trivial (by simp)
  rw [hdef]
  refine ⟨fun e he hopens => ?_, fun o' hwrite e he hid hmissing => ?_,
    fun o' hisOpen e he hid => ?_,
    fun t o' pc hpc' hpc'' => ?_⟩
  · rcases h.ready e he hopens with hcleared | hremoved | hcomplete
    · exact absurd hcleared (hnocleared e)
    · exact absurd hremoved (hnone e)
    · exact Or.inr (Or.inr hcomplete)
  · simp only [setObject, unlockList, leave] at hwrite hid hmissing
    by_cases ho : o' = o
    · subst ho
      rw [Function.update_self] at hid
      rw [hid, hi] at hmissing
      cases hmissing
    · rw [Function.update_of_ne ho] at hwrite hid
      exact absurd (h.present o' hwrite e he hid hmissing) (hnone e)
  · simp only [setObject, unlockList, leave] at hisOpen hid
    by_cases ho : o' = o
    · subst ho
      rw [Function.update_self] at hid
      obtain rfl := hlocked.list.eq_of_id he hentry hid
      rw [hhdr]
      exact fun hstate => by cases hstate
    · rw [Function.update_of_ne ho] at hisOpen hid
      exact h.unready o' hisOpen e he hid
  · rcases hlocked.calls (c := none) rfl hpc' with ⟨-, -, hmem⟩ | ⟨hpc', -, ho⟩
    · cases hmem
    · change (Function.update s.objects o _ o').writable = true ∧
        (pc ≠ .closeWriter → (Function.update s.objects o _ o').isOpen = false)
      rw [Function.update_of_ne ho]
      exact h.committing t o' pc hpc' hpc''

omit [DecidableEq P] [DecidableEq T] [DecidableEq O] in
/-- The entries after a commit: those of other names, and that of the name, which is ready. -/
theorem mem_markReady_cases {name : String} {lst : List TraceExtensionHeader}
    (hlst : UniqueList lst)
    (he : e ∈ markReady name lst) : (e ∈ lst ∧ e.name ≠ name) ∨
      ∃ found ∈ lst, found.name = name ∧ e = { found with state := .READY } := by
  induction lst with
  | nil => cases he
  | cons first lst ih =>
    obtain ⟨hfirst, hrest⟩ := List.pairwise_cons.mp hlst
    unfold markReady at he
    split_ifs at he with hname
    · rcases List.mem_cons.mp he with rfl | he
      · exact Or.inr ⟨first, List.mem_cons_self, hname, rfl⟩
      · refine Or.inl ⟨List.mem_cons_of_mem _ he, fun heq => ?_⟩
        exact (hfirst e he).1 (hname.trans heq.symm)
    · rcases List.mem_cons.mp he with rfl | he
      · exact Or.inl ⟨List.mem_cons_self, hname⟩
      · rcases ih hrest he with ⟨he, hne⟩ | ⟨found, hfound, hrest⟩
        · exact Or.inl ⟨List.mem_cons_of_mem _ he, hne⟩
        · exact Or.inr ⟨found, List.mem_cons_of_mem _ hfound, hrest⟩

omit [DecidableEq P] in
theorem setReady (h : s.ReadyFiles setup) (hsound : s.Sound setup)
    (hpc : s.running (setup.thread o) = some (o, .setReady))
    {removed : Bool} (hkeeps : MeetsOwn setup .setReady removed (s.objects o) s) :
    (s.setReady setup o).ReadyFiles setup := by
  obtain ⟨hlocked, hlist, hfiled⟩ := hsound
  obtain ⟨hwritable, hclosed⟩ := h.committing _ o _ hpc trivial
  have hclosed' := hclosed fun heq => by cases heq
  have hnocleared := not_cleared hlist hpc trivial (by simp)
  have hnone := not_removed hlist hpc trivial (by simp)
  unfold Storage.setReady
  dsimp only
  split_ifs
  · -- the object is what it was, but for the state of its header
    have hsame : ∀ o', (Function.update s.objects o { s.objects o with
        hdr := { (s.objects o).hdr with state := .READY } } o').writable = (s.objects o').writable ∧
        (Function.update s.objects o { s.objects o with
          hdr := { (s.objects o).hdr with state := .READY } } o').isOpen = (s.objects o').isOpen ∧
        (Function.update s.objects o { s.objects o with
          hdr := { (s.objects o).hdr with state := .READY } } o').hdr.id =
            (s.objects o').hdr.id := by
      intro o'
      by_cases ho : o' = o
      · subst ho
        rw [Function.update_self]
        exact ⟨rfl, rfl, rfl⟩
      · rw [Function.update_of_ne ho]
        exact ⟨rfl, rfl, rfl⟩
    refine ⟨fun e he hopens => ?_, fun o' hwrite e he hid hmissing => ?_,
      fun o' hisOpen e he hid => ?_, fun t o' pc hpc' hpc'' => ?_⟩
    · rcases mem_markReady_cases hlocked.list he with ⟨he, hname⟩ | ⟨found, hfound, hname, rfl⟩
      · rcases h.ready e he hopens with hcleared | hremoved | ⟨i, hi, hcontents⟩
        · exact absurd hcleared (hnocleared e)
        · exact absurd hremoved (hnone e)
        · refine Or.inr (Or.inr ⟨i, hi, hcontents.trans ?_⟩)
          change _ = RecordFile.mk (Function.update s.committed _ _ e.name) true
          rw [Function.update_of_ne hname]
      · have hid := hkeeps found hfound hname
        have hpresent : ∃ i, s.directory found.id = some i := by
          by_contra hmissing
          refine hnone found (h.present o hwritable found hfound hid ?_)
          exact Option.eq_none_iff_forall_ne_some.mpr fun i hi => hmissing ⟨i, hi⟩
        obtain ⟨i, hi⟩ := hpresent
        obtain rfl := hfiled.file o hwritable i (hid ▸ hi)
        refine Or.inr (Or.inr ⟨_, hi, ?_⟩)
        change s.inodes (s.objects o).inode = ⟨Function.update s.committed _ _ found.name, true⟩
        rw [hname, Function.update_self, hfiled.contents o hwritable, hclosed']
        rfl
    · have hbefore := hsame o'
      change (Function.update s.objects o _ o').writable = true at hwrite
      change e.id = (Function.update s.objects o _ o').hdr.id at hid
      rw [hbefore.1] at hwrite
      rw [hbefore.2.2] at hid
      rcases mem_markReady_cases hlocked.list he with ⟨he, -⟩ | ⟨found, hfound, -, rfl⟩
      · exact absurd (h.present o' hwrite e he hid hmissing) (hnone e)
      · exact absurd (h.present o' hwrite found hfound hid hmissing) (hnone found)
    · have hbefore := hsame o'
      change (Function.update s.objects o _ o').isOpen = true at hisOpen
      change e.id = (Function.update s.objects o _ o').hdr.id at hid
      rw [hbefore.2.1] at hisOpen
      rw [hbefore.2.2] at hid
      rcases mem_markReady_cases hlocked.list he with ⟨he, -⟩ | ⟨found, hfound, hname, rfl⟩
      · exact h.unready o' hisOpen e he hid
      · -- only the object itself has locked this file, and it has closed it
        have hown := (hkeeps found hfound hname).symm.trans hid
        obtain rfl := hlocked.unique (hlocked.writable o hwritable)
          (hlocked.writable o' (hfiled.opened o' hisOpen)) hown
        rw [hisOpen] at hclosed'
        cases hclosed'
    · rcases hlocked.calls (c := none) rfl hpc' with ⟨-, -, hmem⟩ | ⟨hpc', -, ho⟩
      · cases hmem
      · change (Function.update s.objects o _ o').writable = true ∧
          (pc ≠ .closeWriter → (Function.update s.objects o _ o').isOpen = false)
        rw [Function.update_of_ne ho]
        exact h.committing t o' pc hpc' hpc''
  · refine h.move (o := o) (c := none) hlocked hfiled rfl rfl (fun o' pc hpc' hrewriting => ?_) rfl
      rfl rfl rfl (by simp)
    obtain ⟨rfl, rfl⟩ := Prod.mk.inj (Option.some.inj (hpc.symm.trans hpc'))
    cases hrewriting

omit [DecidableEq P] in
theorem removeFile (h : s.ReadyFiles setup) (hsound : s.Sound setup) {op : ListOperation}
    {removed : Bool} (hpc : s.running (setup.thread o) = some (o, .removeFile op))
    (hkeeps : MeetsOwn setup (.removeFile op) removed (s.objects o) s) :
    (s.removeFile setup o op removed).ReadyFiles setup := by
  obtain ⟨hlocked, hlist, hfiled⟩ := hsound
  have hnocleared := not_cleared hlist hpc trivial (by simp)
  have hnone := not_removed hlist hpc trivial (by simp)
  have hsame : ∀ o', ((s.removeFile setup o op removed).objects o').writable =
        (s.objects o').writable ∧
      ((s.removeFile setup o op removed).objects o').isOpen = (s.objects o').isOpen ∧
      ((s.removeFile setup o op removed).objects o').hdr = (s.objects o').hdr ∧
      ((s.removeFile setup o op removed).objects o').extName = (s.objects o').extName := by
    intro o'
    simp only [Storage.removeFile, goTo, setObject]
    by_cases ho : o' = o
    · subst ho
      rw [Function.update_self]
      exact ⟨rfl, rfl, rfl, rfl⟩
    · rw [Function.update_of_ne ho]
      exact ⟨rfl, rfl, rfl, rfl⟩
  have hrun : (s.removeFile setup o op removed).running =
      Function.update s.running (setup.thread o) (some (o, .rewriteList op)) := rfl
  have hdirectory : ∀ id, (s.removeFile setup o op removed).directory id = s.directory id ∨
      (s.Resists (s.objects o).hdr.id removed = false ∧ id = (s.objects o).hdr.id ∧
        (s.removeFile setup o op removed).directory id = none) := by
    intro id
    simp only [Storage.removeFile, goTo, setObject]
    split_ifs with hresists
    · exact Or.inl rfl
    · by_cases hid : id = (s.objects o).hdr.id
      · subst hid
        rw [Function.update_self]
        exact Or.inr ⟨by simpa using hresists, rfl, rfl⟩
      · exact Or.inl (Function.update_of_ne hid _ _)
  -- a needed entry whose file goes has the name of the object, too
  have hremoval : ∀ e ∈ s.list, s.Resists (s.objects o).hdr.id removed = false →
      e.id = (s.objects o).hdr.id → Needed setup s e →
      (s.removeFile setup o op removed).directory e.id = none →
      Removed (s.removeFile setup o op removed) e := by
    intro e he hresists hid hneeded hgone
    refine ⟨hgone, setup.thread o, o, op, ?_, ?_, ?_⟩
    · rw [hrun, Function.update_self]
    · rw [(hsame o).2.2.1, hid]
    · rw [(hsame o).2.2.2, hkeeps hresists e he hid hneeded]
  refine ⟨fun e he hopens => ?_, fun o' hwrite e he hid hmissing => ?_,
    fun o' hisOpen e he hid => ?_,
    fun t o' pc hpc' hpc'' => ?_⟩
  · rcases h.ready e he hopens with hcleared | hremoved | ⟨i, hi, hcontents⟩
    · exact absurd hcleared (hnocleared e)
    · exact absurd hremoved (hnone e)
    · rcases hdirectory e.id with hkept | ⟨hresists, hid, hgone⟩
      · exact Or.inr (Or.inr ⟨i, hkept.trans hi, hcontents⟩)
      · exact Or.inr (Or.inl (hremoval e he hresists hid (Or.inl hopens) hgone))
  · rw [(hsame o').1] at hwrite
    rw [(hsame o').2.2.1] at hid
    rcases hdirectory e.id with hkept | ⟨hresists, hid', hgone⟩
    · exact absurd (h.present o' hwrite e he hid (hkept ▸ hmissing)) (hnone e)
    · exact hremoval e he hresists hid' (Or.inr ⟨o', hwrite, hid.symm⟩) hgone
  · rw [(hsame o').2.1] at hisOpen
    rw [(hsame o').2.2.1] at hid
    exact h.unready o' hisOpen e he hid
  · rw [(hsame o').1, (hsame o').2.1]
    rcases hlocked.calls (c := some (.rewriteList op)) hrun hpc' with ⟨-, -, hmem⟩ | ⟨hpc', -, -⟩
    · cases Option.mem_some_iff.mp hmem
      cases hpc''
    · exact h.committing t o' pc hpc' hpc''

omit [DecidableEq P] [DecidableEq O] in
/-- The entries of a name are removed, and with them those that have lost their file. -/
theorem filter (h : s.ReadyFiles setup) (hsound : s.Sound setup) {op : ListOperation}
    {c : Option Pc}
    (hpc : s.running (setup.thread o) = some (o, .rewriteList op))
    (hobjects : s'.objects = s.objects)
    (hrunning : s'.running =
      Function.update s.running (setup.thread o) (c.map fun pc => (o, pc)))
    (hlist : s'.list = s.list.filter fun extHdr => extHdr.name ≠ (s.objects o).extName)
    (hdirectory : s'.directory = s.directory) (hinodes : s'.inodes = s.inodes)
    (hcommitted : s'.committed = s.committed) (hc : ∀ pc ∈ c, ¬ pc.Commits) :
    s'.ReadyFiles setup := by
  have hnocleared := not_cleared hsound.transactional hpc trivial (by simp)
  have hremoved := (alone hsound.transactional hpc trivial).2
  have hentry : ∀ e ∈ s'.list, e ∈ s.list ∧ e.name ≠ (s.objects o).extName := by
    intro e he
    rw [hlist] at he
    obtain ⟨he, hname⟩ := List.mem_filter.mp he
    exact ⟨he, of_decide_eq_true hname⟩
  refine ⟨fun e he hopens => ?_, fun o' hwrite e he hid hmissing => ?_,
    fun o' hisOpen e he hid => ?_,
    fun t o' pc hpc' hpc'' => ?_⟩
  · obtain ⟨he, hname⟩ := hentry e he
    rcases h.ready e he hopens with hcleared | hgone | ⟨i, hi, hcontents⟩
    · exact absurd hcleared (hnocleared e)
    · exact absurd (hremoved e hgone).2.2.symm hname
    · exact Or.inr (Or.inr ⟨i, by rw [hdirectory, hi], by rw [hinodes, hcommitted, hcontents]⟩)
  · obtain ⟨he, hname⟩ := hentry e he
    rw [hobjects] at hwrite hid
    have hgone := h.present o' hwrite e he hid (hdirectory ▸ hmissing)
    exact absurd (hremoved e hgone).2.2.symm hname
  · rw [hobjects] at hisOpen hid
    exact h.unready o' hisOpen e (hentry e he).1 hid
  · rw [hobjects]
    rcases hsound.locked.calls hrunning hpc' with ⟨-, -, hmem⟩ | ⟨hpc', -, -⟩
    · exact absurd hpc'' (hc pc hmem)
    · exact h.committing t o' pc hpc' hpc''

theorem readList (h : s.ReadyFiles setup) (hlocked : s.Locked setup) (hfiled : s.Filed)
    (hpc : s.running (setup.thread o) = some (o, .readList)) :
    (s.readList setup o).ReadyFiles setup := by
  have hquiet : ∀ o' c, s.running (setup.thread o) = some (o', c) → ¬ c.Rewriting := by
    intro o' c hc
    obtain ⟨rfl, rfl⟩ := Prod.mk.inj (Option.some.inj (hpc.symm.trans hc))
    exact id
  have hunwritten := hlocked.unwritten (hlocked.before _ o _ hpc trivial)
  have hnever : ∀ q : Prop, (s.objects o).writable = true → q := fun q hwrite => by
    rw [hunwritten] at hwrite
    cases hwrite
  have hshut : ∀ q : Prop, (s.objects o).isOpen = true → q := fun q hopen =>
    hnever q (hfiled.opened o hopen)
  have hspec := readList_spec setup s o
  generalize s.readList setup o = s' at hspec
  cases hspec with
  | duplicate =>
    exact h.quiet (c := none) hlocked hfiled rfl rfl hquiet rfl rfl rfl (fun _ _ => rfl)
      (fun hwrite => by cases hwrite) (fun hopen => by cases hopen) (by simp)
  | ready | busy =>
    exact h.quiet (c := none) hlocked hfiled rfl rfl hquiet rfl rfl rfl (fun _ _ => rfl)
      (hnever _) (hshut _) (by simp)
  | new | stale =>
    refine h.quiet (c := some (.lockExtension _)) hlocked hfiled rfl rfl hquiet rfl rfl rfl
      (fun _ _ => rfl) (hnever _) (hshut _) ?_
    rintro pc ⟨⟩ ⟨⟩
  | abandoned =>
    refine h.quiet (c := some (.clear _)) hlocked hfiled rfl rfl hquiet rfl rfl rfl
      (fun _ _ => rfl) (hnever _) (hshut _) ?_
    rintro pc ⟨⟩ ⟨⟩

theorem advance (h : s.ReadyFiles setup) (hsound : s.Sound setup) {pc : Pc} {removed : Bool}
    (hpc : s.running (setup.thread o) = some (o, pc))
    (hkeeps : KeepsReady setup (.advance (setup.thread o) removed : Action P T O E) s) :
    (s.advance setup o pc removed).ReadyFiles setup := by
  have hlocked := hsound.locked
  have hfiled := hsound.filed
  have hown := hkeeps (o, pc) hpc
  have hquiet : ¬ pc.Rewriting →
      ∀ o' c, s.running (setup.thread o) = some (o', c) → ¬ c.Rewriting := by
    intro hrewriting o' c hc
    obtain ⟨rfl, rfl⟩ := Prod.mk.inj (Option.some.inj (hpc.symm.trans hc))
    exact hrewriting
  have hsame : (s.objects o).writable = true → (s.objects o).writable = true ∧
      (s.objects o).hdr.id = (s.objects o).hdr.id := fun hwrite => ⟨hwrite, rfl⟩
  have hsame' : (s.objects o).isOpen = true → (s.objects o).isOpen = true ∧
      (s.objects o).hdr.id = (s.objects o).hdr.id := fun hopen => ⟨hopen, rfl⟩
  cases pc with
  | lockList op =>
    unfold Storage.advance
    dsimp only
    split
    · exact h
    · refine h.move (c := some _) hlocked hfiled rfl rfl (hquiet id) rfl rfl rfl rfl ?_
      rintro pc ⟨⟩ hcommits
      cases op with
      | commit =>
        obtain ⟨hwrite, hclosed⟩ := h.committing _ o _ hpc trivial
        exact ⟨hwrite, fun _ => hclosed fun heq => by cases heq⟩
      | construct | remove | destroy => cases hcommits
  | readList => exact h.readList hlocked hfiled hpc
  | lockExtension lst =>
    change (s.lockExtension setup o lst).ReadyFiles setup
    unfold Storage.lockExtension
    dsimp only
    split_ifs
    · refine h.quiet (c := some (.clear lst)) hlocked hfiled rfl rfl (hquiet id) rfl rfl rfl
        (fun _ _ => rfl) hsame hsame' ?_
      rintro pc ⟨⟩ ⟨⟩
    · exact h
  | clear lst => exact h.clear hsound hpc
  | writeList lst => exact h.writeList hsound hpc rfl
  | openWriter => exact h.openWriter hsound hpc
  | closeWriter =>
    obtain ⟨hwrite, -⟩ := h.committing _ o _ hpc trivial
    change (s.closeWriter setup o).ReadyFiles setup
    unfold Storage.closeWriter
    dsimp only
    split_ifs with hopen
    · refine h.quiet (x := { s.objects o with isOpen := false }) (c := some (.lockList .commit))
        hlocked hfiled rfl rfl (hquiet id) rfl rfl rfl (fun i hi => ?_) hsame
        (fun hopen => by cases hopen) ?_
      · exact Function.update_of_ne (hi hopen) _ _
      · exact fun _ _ _ => ⟨hwrite, fun _ => rfl⟩
    · exact h.move (o := o) (c := none) hlocked hfiled rfl rfl (hquiet id) rfl rfl rfl rfl (by simp)
  | setReady => exact h.setReady hsound hpc hown
  | removeFile op => exact h.removeFile hsound hpc hown
  | rewriteList op =>
    change (s.rewriteList setup o op).ReadyFiles setup
    unfold Storage.rewriteList
    dsimp only
    split_ifs
    · refine h.filter (c := some .release) hsound hpc rfl rfl rfl rfl rfl rfl ?_
      rintro pc ⟨⟩ ⟨⟩
    · exact h.filter (c := none) hsound hpc rfl rfl rfl rfl rfl rfl (by simp)
  | release =>
    obtain ⟨hobjects, hrunning, hlist, -, hdirectory, -⟩ := release_frame setup o s
    obtain ⟨hcommitted, hinodes⟩ := release_files setup o s
    exact h.quiet (c := none) hlocked hfiled hobjects hrunning
      (hquiet id) hlist hdirectory hcommitted
      hinodes (fun hwrite => by cases hwrite) (fun hopen => by cases hopen) (by simp)

omit [DecidableEq T] [DecidableEq O] in
theorem die (h : s.ReadyFiles setup) (hlocked : s.Locked setup) {p : P}
    (hkeeps : KeepsReady setup (.die p : Action P T O E) s) : (s.die setup p).ReadyFiles setup := by
  have hobject : ∀ o, (s.die setup p).objects o = s.objects o ∧ setup.processOf o ≠ p ∨
      (s.die setup p).objects o = .absent E := by
    intro o
    by_cases hp : setup.processOf o = p
    · exact Or.inr (if_pos hp)
    · exact Or.inl ⟨if_neg hp, hp⟩
  have hsurvives : ∀ t o pc, s.running t = some (o, pc) → setup.process t ≠ p →
      (s.die setup p).running t = some (o, pc) ∧ (s.die setup p).objects o = s.objects o := by
    intro t o pc hpc hp
    refine ⟨(if_neg hp).trans hpc, if_neg ?_⟩
    rw [Setup.processOf, hlocked.thread t o pc hpc]
    exact hp
  refine ⟨fun e he hopens => ?_, fun o hwrite e he hid hmissing => ?_, fun o hopen e he hid => ?_,
    fun t o pc hpc hcommits => ?_⟩
  · rcases h.ready e he hopens with
      ⟨t, o, lst, hpc, hid⟩ | ⟨hgone, t, o, op, hpc, hid, hname⟩ | hcomplete
    · by_cases hp : setup.process t = p
      · exact absurd hopens (hkeeps t hp _ hpc e he hid.symm)
      · obtain ⟨hpc', hsame⟩ := hsurvives t o _ hpc hp
        exact Or.inl ⟨t, o, lst, hpc', hsame ▸ hid⟩
    · by_cases hp : setup.process t = p
      · exact absurd hopens (hkeeps t hp _ hpc e he hid.symm hgone).1
      · obtain ⟨hpc', hsame⟩ := hsurvives t o _ hpc hp
        exact Or.inr (Or.inl ⟨hgone, t, o, op, hpc', hsame ▸ hid, hsame ▸ hname⟩)
    · exact Or.inr (Or.inr hcomplete)
  · rcases hobject o with ⟨heq, hprocess⟩ | heq
    · rw [heq] at hwrite hid
      obtain ⟨hgone, t, o', op, hpc, hid', hname⟩ := h.present o hwrite e he hid hmissing
      by_cases hp : setup.process t = p
      · exact absurd ((hkeeps t hp _ hpc e he hid'.symm hgone).2 o hwrite hid.symm) hprocess
      · obtain ⟨hpc', hsame⟩ := hsurvives t o' _ hpc hp
        exact ⟨hgone, t, o', op, hpc', hsame ▸ hid', hsame ▸ hname⟩
    · rw [heq] at hwrite
      cases hwrite
  · rcases hobject o with ⟨heq, -⟩ | heq
    · rw [heq] at hopen hid
      exact h.unready o hopen e he hid
    · rw [heq] at hopen
      cases hopen
  · obtain ⟨hpc, -, hsame⟩ := hlocked.survives hpc
    rw [hsame]
    exact h.committing t o pc hpc hcommits

theorem step (h : s.ReadyFiles setup) (hsound : s.Sound setup) {action : Action P T O E}
    (hkeeps : KeepsReady setup action s) : (s.step setup action).ReadyFiles setup := by
  have hlocked := hsound.locked
  have hfiled := hsound.filed
  have hidle : ∀ o, s.running (setup.thread o) = none →
      ∀ o' pc, s.running (setup.thread o) = some (o', pc) → ¬ pc.Rewriting := by
    intro o hnone o' pc hpc
    rw [hnone] at hpc
    cases hpc
  have hbegins : ∀ (o : O) (pc : Pc), s.running (setup.thread o) = none →
      (pc.Commits → (s.objects o).writable = true ∧
        (pc ≠ .closeWriter → (s.objects o).isOpen = false)) →
      (s.goTo (setup.thread o) o pc).ReadyFiles setup := by
    intro o pc hnone hcommits
    refine h.move hlocked hfiled (c := some pc) rfl rfl (hidle o hnone) rfl rfl rfl rfl ?_
    rintro pc ⟨⟩
    exact hcommits
  have hsteps := hlocked.steps action
  generalize s.step setup action = s' at hsteps
  cases hsteps with
  | construct o extName hstart =>
    refine h.quiet hlocked hfiled (c := some (.lockList .construct)) rfl rfl (hidle o hstart.1)
      rfl rfl rfl (fun _ _ => rfl) (fun hwrite => by cases hwrite) (fun hopen => by cases hopen) ?_
    rintro pc ⟨⟩ ⟨⟩
  | write o record hstart hopen =>
    exact h.quiet hlocked hfiled (o := o) (c := none) rfl
      (Function.update_eq_self_iff.mpr hstart.1.symm).symm (hidle o hstart.1) rfl rfl rfl
      (fun i hi => Function.update_of_ne (hi hopen) _ _) (fun hwrite => ⟨hwrite, rfl⟩)
      (fun hopen => ⟨hopen, rfl⟩) (by simp)
  | commit o hstart hwritable =>
    exact hbegins o .closeWriter hstart.1 fun _ => ⟨hwritable, fun hne => absurd rfl hne⟩
  | remove o hstart =>
    exact hbegins o (.lockList .remove) hstart.1 fun hcommits => by cases hcommits
  | destroy o hstart =>
    exact hbegins o (.lockList .destroy) hstart.1 fun hcommits => by cases hcommits
  | release o hstart => exact hbegins o .release hstart.1 fun hcommits => by cases hcommits
  | advance o pc removed hpc => exact h.advance hsound hpc hkeeps
  | die p => exact h.die hlocked hkeeps
  | stay => exact h

end ReadyFiles

/-- Who reads the list finds the files of its ready extensions complete. -/
def OpensComplete (setup : Setup P T O) (s : Storage P T O E) : Prop :=
  ∀ o, s.running (setup.thread o) = some (o, .readList) → ∀ e ∈ s.list, e.state = .READY →
    e.version = setup.version (setup.processOf o) → Complete s e

theorem run_opensComplete (setup : Setup P T O) (actions : List (Action P T O E))
    (h : Meets (step setup) (fun action s => KeepsLocks setup action s ∧ KeepsReady setup action s)
      actions init) : (run (step setup) actions init).OpensComplete setup := by
  obtain ⟨hsound, hready⟩ := run_invariant (P := fun s => Sound setup s ∧ ReadyFiles setup s)
    (fun _ _ hkeeps hs => ⟨hs.1.step hkeeps.1, hs.2.step hs.1 hkeeps.2⟩) h
    ⟨Sound.init, ReadyFiles.init⟩
  intro o hpc e he hstate hversion
  have hnocleared := ReadyFiles.not_cleared hsound.transactional hpc trivial (by simp)
  have hnoremoved := ReadyFiles.not_removed hsound.transactional hpc trivial (by simp)
  rcases hready.ready e he ⟨hstate, _, hversion.symm⟩ with hcleared | hremoved | hcomplete
  · exact absurd hcleared (hnocleared e)
  · exact absurd hremoved (hnoremoved e)
  · exact hcomplete

/-- One process builds an extension, and the other one opens it. -/
def opensBuilt : List (Action Bool Bool Bool ℕ) :=
  buildsWatched.take 10 ++ [.advance true true, .commit false] ++
    List.replicate 3 (.advance false true) ++
      [.destroy true, .advance true true, .construct true "io",
      .advance true true]

theorem opensBuilt_complete :
    (run (step (twoProcesses fun _ => "21.6")) opensBuilt init).OpensComplete
      (twoProcesses fun _ => "21.6") :=
  run_opensComplete (twoProcesses fun _ => "21.6") opensBuilt (by decide +kernel)

/-- The second process has a newer version of the framework. -/
def mixedVersions (p : ℕ) : String := if p = 1 then "21.7" else "21.6"

/-- A newer process clears the file of an older one's extension and dies. -/
def diesCleared : List (Action ℕ ℕ ℕ ℕ) :=
  constructs 0 "io" 6 ++ [.write 0 7, .commit 0] ++ List.replicate 3 (.advance 0 true) ++
    [.destroy 0, .advance 0 true] ++ constructs 1 "io" 4 ++ [.die 1] ++ constructs 2 "io" 1

/-- Then a process of the older version takes the empty file for the extension. -/
theorem diesCleared_not_complete :
    ¬ (run (step (manyProcesses mixedVersions)) diesCleared init).OpensComplete
      (manyProcesses mixedVersions) := by
  intro h
  obtain ⟨i, hi, hcontents⟩ := h 2 (by decide +kernel) ⟨"io", 1, .READY, "21.6"⟩
    (by decide +kernel) rfl (by decide +kernel)
  have hstate : (run (step (manyProcesses mixedVersions)) diesCleared init).directory 1 = some 0 ∧
      ((run (step (manyProcesses mixedVersions)) diesCleared init).inodes 0).records = [] ∧
      (run (step (manyProcesses mixedVersions)) diesCleared init).committed "io" = [7] := by
    decide +kernel
  obtain ⟨hfile, hempty, hwritten⟩ := hstate
  obtain rfl := Option.some.inj (hi.symm.trans hfile)
  rw [hcontents] at hempty
  exact List.cons_ne_nil 7 [] (hwritten.symm.trans hempty)

end Storage

end Octf.Extension
