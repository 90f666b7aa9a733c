import Octf.Extension.ExtensionLocks

/-! The lock of the list: its holder is inside a call that reads or writes the list, and the list
that a constructor is going to write is the stored one with its own header put in. -/
namespace Octf.Extension
open Foundation

/-- The steps that are made with the list locked. -/
def Pc.Critical : Pc → Prop
  | .lockList _ | .closeWriter | .release => False
  | _ => True

theorem Pc.critical_of_list {pc : Pc} {lst : List TraceExtensionHeader} (h : pc.list? = some lst) :
    pc.Critical := by
  cases pc with
  | lockExtension _ | clear _ | writeList _ => trivial
  | _ => cases h

namespace Storage

variable {P T O E : Type} [DecidableEq P] [DecidableEq T] [DecidableEq O]
  {setup : Setup P T O} {s s' : Storage P T O E} {o o' : O}

omit [DecidableEq P] [DecidableEq T] [DecidableEq O] in
theorem mem_store {hdr e : TraceExtensionHeader} {lst : List TraceExtensionHeader} :
    e ∈ store hdr lst ↔ e = hdr ∨ (e ∈ lst ∧ e.name ≠ hdr.name) := by
  unfold store
  split_ifs with hfound
  · simp only [List.any_eq_true, decide_eq_true_eq] at hfound
    obtain ⟨found, hmem, hname⟩ := hfound
    rw [List.mem_map]
    constructor
    · rintro ⟨a, ha, rfl⟩
      split_ifs with hna
      · exact Or.inl rfl
      · exact Or.inr ⟨ha, hna⟩
    · rintro (rfl | ⟨he, hne⟩)
      · exact ⟨found, hmem, if_pos hname⟩
      · exact ⟨e, he, if_neg hne⟩
  · simp only [List.any_eq_true, decide_eq_true_eq, not_exists, not_and] at hfound
    rw [List.mem_append, List.mem_singleton]
    constructor
    · rintro (he | rfl)
      · exact Or.inr ⟨he, hfound e he⟩
      · exact Or.inl rfl
    · rintro (rfl | ⟨he, -⟩)
      · exact Or.inr rfl
      · exact Or.inl he

/-- What a constructor with the list locked is going to write: its header has a new id, or that of
an extension that is not ready for its version. -/
structure Pending (version : String) (list : List TraceExtensionHeader)
    (x : TraceExtensionLocal E) (lst : List TraceExtensionHeader) : Prop where
  lst : lst = store x.hdr list
  hdr : x.hdr = building x.extName x.hdr.id version
  found : (∀ e ∈ list, e.id ≠ x.hdr.id ∧ (e.name = x.extName → e.name = "")) ∨
    ∃ e ∈ list, e.id = x.hdr.id ∧ e.name = x.extName ∧
      (e.state = .READY → e.version ≠ version)

/-- The list is locked while a call reads or writes it, and by nothing else. -/
structure Transactional (setup : Setup P T O) (s : Storage P T O E) : Prop where
  critical : ∀ t o pc, s.running t = some (o, pc) → pc.Critical → s.listLock = some t
  holder : ∀ t, s.listLock = some t → ∃ o pc, s.running t = some (o, pc) ∧ pc.Critical
  pending : ∀ t o pc lst, s.running t = some (o, pc) → pc.list? = some lst →
    Pending (setup.version (setup.processOf o)) s.list (s.objects o) lst
  /-- Who waits for the lock of an extension builds a new one, or one that is ready. -/
  waiting : ∀ t o lst, s.running t = some (o, .lockExtension lst) →
    ∀ e ∈ s.list, e.id = (s.objects o).hdr.id → e.state = .READY
  written : ∀ t o, s.running t = some (o, .openWriter) → (s.objects o).hdr ∈ s.list ∧
    (s.objects o).hdr = building (s.objects o).extName (s.objects o).hdr.id
      (setup.version (setup.processOf o))

namespace Transactional

omit [DecidableEq P] [DecidableEq T] [DecidableEq O] in
theorem init : (init : Storage P T O E).Transactional setup where
  critical _ _ _ h := by cases h
  holder _ h := by cases h
  pending _ _ _ _ h := by cases h
  waiting _ _ _ h := by cases h
  written _ _ h := by cases h

omit [DecidableEq P] [DecidableEq O] in
/-- A step of the call of one object, which changes the list only if its thread has locked it. -/
theorem of_object (h : s.Transactional setup) (hlocked : s.Locked setup) {c : Option Pc}
    (hobjects : ∀ o' ≠ o, s'.objects o' = s.objects o')
    (hrunning : s'.running =
      Function.update s.running (setup.thread o) (c.map fun pc => (o, pc)))
    (hothers : ∀ t ≠ setup.thread o, s'.listLock = some t ↔ s.listLock = some t)
    (hcritical : ∀ pc ∈ c, pc.Critical → s'.listLock = some (setup.thread o))
    (hholder : s'.listLock = some (setup.thread o) → ∃ pc ∈ c, pc.Critical)
    (hlist : s'.list = s.list ∨ s.listLock = some (setup.thread o))
    (hpending : ∀ pc ∈ c, ∀ lst ∈ pc.list?,
      Pending (setup.version (setup.processOf o)) s'.list (s'.objects o) lst)
    (hwaiting : ∀ lst, Pc.lockExtension lst ∈ c →
      ∀ e ∈ s'.list, e.id = (s'.objects o).hdr.id → e.state = .READY)
    (hwritten : Pc.openWriter ∈ c → (s'.objects o).hdr ∈ s'.list ∧
      (s'.objects o).hdr = building (s'.objects o).extName (s'.objects o).hdr.id
        (setup.version (setup.processOf o))) : s'.Transactional setup := by
  -- another thread inside the list has it locked, and then this step has left it
  have hsame : ∀ t o' pc, s.running t = some (o', pc) → t ≠ setup.thread o → pc.Critical →
      s'.list = s.list := by
    intro t o' pc hpc ht hin
    rcases hlist with heq | hown
    · exact heq
    · rw [h.critical t o' pc hpc hin] at hown
      exact absurd (Option.some.inj hown) ht
  refine ⟨?_, ?_, ?_, ?_, ?_⟩
  · intro t o' pc hpc hin
    rcases hlocked.calls hrunning hpc with ⟨rfl, rfl, hmem⟩ | ⟨hpc, ht, -⟩
    · exact hcritical pc hmem hin
    · exact (hothers t ht).mpr (h.critical t o' pc hpc hin)
  · intro t hlock
    by_cases ht : t = setup.thread o
    · subst ht
      obtain ⟨pc, hmem, hin⟩ := hholder hlock
      refine ⟨o, pc, ?_, hin⟩
      rw [hrunning, Function.update_self, Option.mem_def.mp hmem]
      rfl
    · obtain ⟨o', pc, hpc, hin⟩ := h.holder t ((hothers t ht).mp hlock)
      exact ⟨o', pc, by rw [hrunning, Function.update_of_ne ht, hpc], hin⟩
  · intro t o' pc lst hpc hlst
    rcases hlocked.calls hrunning hpc with ⟨rfl, rfl, hmem⟩ | ⟨hpc, ht, ho⟩
    · exact hpending pc hmem lst hlst
    · rw [hsame t o' pc hpc ht (Pc.critical_of_list hlst), hobjects o' ho]
      exact h.pending t o' pc lst hpc hlst
  · intro t o' lst hpc
    rcases hlocked.calls hrunning hpc with ⟨rfl, rfl, hmem⟩ | ⟨hpc, ht, ho⟩
    · exact hwaiting lst hmem
    · rw [hsame t o' _ hpc ht trivial, hobjects o' ho]
      exact h.waiting t o' lst hpc
  · intro t o' hpc
    rcases hlocked.calls hrunning hpc with ⟨rfl, rfl, hmem⟩ | ⟨hpc, ht, ho⟩
    · exact hwritten hmem
    · rw [hsame t o' _ hpc ht trivial, hobjects o' ho]
      exact h.written t o' hpc

omit [DecidableEq P] [DecidableEq O] in
/-- A step outside the list, or one that leaves it. -/
theorem outside (h : s.Transactional setup) (hlocked : s.Locked setup) {c : Option Pc}
    (hobjects : ∀ o' ≠ o, s'.objects o' = s.objects o')
    (hrunning : s'.running =
      Function.update s.running (setup.thread o) (c.map fun pc => (o, pc)))
    (hothers : ∀ t ≠ setup.thread o, s'.listLock = some t ↔ s.listLock = some t)
    (hfree : s'.listLock ≠ some (setup.thread o)) (hcall : ∀ pc ∈ c, ¬ pc.Critical)
    (hlist : s'.list = s.list ∨ s.listLock = some (setup.thread o)) : s'.Transactional setup := by
  refine h.of_object hlocked hobjects hrunning hothers (fun pc hmem hin => ?_)
    (fun hlock => absurd hlock hfree) hlist (fun pc hmem lst hlst => ?_) (fun lst hmem => ?_)
    fun hmem => ?_
  · exact absurd hin (hcall pc hmem)
  · exact absurd (Pc.critical_of_list hlst) (hcall pc hmem)
  · exact absurd trivial (hcall _ hmem)
  · exact absurd trivial (hcall _ hmem)

omit [DecidableEq P] [DecidableEq T] [DecidableEq O] in
/-- The thread of a call that is not inside the list has not locked it. -/
theorem unlocked (h : s.Transactional setup) {t : T}
    (hcall : ∀ o pc, s.running t = some (o, pc) → ¬ pc.Critical) : s.listLock ≠ some t := by
  intro hlock
  obtain ⟨o, pc, hpc, hin⟩ := h.holder t hlock
  exact hcall o pc hpc hin

omit [DecidableEq P] [DecidableEq O] in
/-- A step after which the list is unlocked. -/
theorem unlock (h : s.Transactional setup) (hlocked : s.Locked setup) {c : Option Pc}
    (hlock : s.listLock = some (setup.thread o)) (hobjects : ∀ o' ≠ o, s'.objects o' = s.objects o')
    (hrunning : s'.running =
      Function.update s.running (setup.thread o) (c.map fun pc => (o, pc)))
    (hcall : ∀ pc ∈ c, ¬ pc.Critical) (hnone : s'.listLock = none) : s'.Transactional setup := by
  refine h.outside hlocked hobjects hrunning (fun t ht => ?_) (by simp [hnone]) hcall (Or.inr hlock)
  simp [hnone, hlock, ht.symm]

omit [DecidableEq P] [DecidableEq O] in
/-- A step from one place inside the list to another. -/
theorem inside (h : s.Transactional setup) (hlocked : s.Locked setup) {pc c : Pc}
    (hpc : s.running (setup.thread o) = some (o, pc)) (hcritical : pc.Critical)
    (hobjects : ∀ o' ≠ o, s'.objects o' = s.objects o')
    (hrunning : s'.running = Function.update s.running (setup.thread o) (some (o, c)))
    (hcritical' : c.Critical) (hlock : s'.listLock = s.listLock)
    (hpending : ∀ lst ∈ c.list?,
      Pending (setup.version (setup.processOf o)) s'.list (s'.objects o) lst)
    (hwaiting : ∀ lst, c = .lockExtension lst →
      ∀ e ∈ s'.list, e.id = (s'.objects o).hdr.id → e.state = .READY)
    (hwritten : c = .openWriter → (s'.objects o).hdr ∈ s'.list ∧
      (s'.objects o).hdr = building (s'.objects o).extName (s'.objects o).hdr.id
        (setup.version (setup.processOf o))) : s'.Transactional setup := by
  have hown := h.critical _ o pc hpc hcritical
  refine h.of_object (c := some c) hlocked hobjects hrunning (fun t _ => by rw [hlock])
    (fun _ _ _ => hlock.trans hown) (fun _ => ⟨c, rfl, hcritical'⟩) (Or.inr hown) ?_ ?_ ?_
  · rintro pc ⟨⟩
    exact hpending
  · rintro lst ⟨⟩
    exact hwaiting lst rfl
  · rintro ⟨⟩
    exact hwritten rfl

theorem readList (h : s.Transactional setup) (hlocked : s.Locked setup)
    (hpc : s.running (setup.thread o) = some (o, .readList))
    (hids : maxId s.list + 1 < 2 ^ 64) : (s.readList setup o).Transactional setup := by
  have hown := h.critical _ o _ hpc trivial
  have hspec := readList_spec setup s o
  generalize s.readList setup o = s' at hspec
  cases hspec with
  | duplicate | ready | busy =>
    exact h.unlock (c := none) hlocked hown (objects_setObject_of_ne o _ s) rfl (by simp) rfl
  | new hname hdr hhdr =>
    obtain ⟨hfresh, -⟩ := store_fresh hlocked.list hids hhdr
    refine h.inside (c := .lockExtension _) hlocked hpc trivial (objects_setObject_of_ne o _ s) rfl
      trivial rfl ?_ (fun _ _ => ?_) (fun heq => by cases heq)
    · rintro lst ⟨⟩
      change Pending _ s.list (Function.update s.objects o _ o) _
      rw [Function.update_self]
      refine ⟨rfl, ?_, Or.inl fun e he => ⟨hfresh e he, hname e he⟩⟩
      rw [hhdr]
      rfl
    · change ∀ e ∈ s.list, e.id = (Function.update s.objects o _ o).hdr.id → _
      rw [Function.update_self]
      exact fun e he hid => absurd hid (hfresh e he)
  | stale found hdr hfound hname hready hversion hhdr =>
    refine h.inside (c := .lockExtension _) hlocked hpc trivial (objects_setObject_of_ne o _ s) rfl
      trivial rfl ?_ (fun _ _ => ?_) (fun heq => by cases heq)
    · rintro lst ⟨⟩
      change Pending _ s.list (Function.update s.objects o _ o) _
      rw [Function.update_self]
      refine ⟨rfl, ?_, Or.inr ⟨found, hfound, ?_, hname, fun _ => hversion⟩⟩ <;> rw [hhdr] <;> rfl
    · change ∀ e ∈ s.list, e.id = (Function.update s.objects o _ o).hdr.id → _
      rw [Function.update_self]
      intro e he hid
      rw [hhdr] at hid
      rw [hlocked.list.eq_of_id he hfound hid, hready]
  | abandoned found hdr hfound hname hready hfree hhdr =>
    refine h.inside (c := .clear _) hlocked hpc trivial (objects_setObject_of_ne o _ s) rfl
      trivial rfl ?_ (fun _ heq => by cases heq) (fun heq => by cases heq)
    rintro lst ⟨⟩
    change Pending _ s.list (Function.update s.objects o _ o) _
    rw [Function.update_self]
    refine ⟨rfl, ?_, Or.inr ⟨found, hfound, ?_, hname, fun heq => absurd heq hready⟩⟩ <;>
      rw [hhdr] <;> rfl

theorem lockList (h : s.Transactional setup) (hlocked : s.Locked setup) {op : ListOperation}
    {removed : Bool} : (s.advance setup o (.lockList op) removed).Transactional setup := by
  unfold Storage.advance
  dsimp only
  split
  · exact h
  · rename_i hnone
    refine h.of_object (c := some _) hlocked (fun _ _ => rfl) rfl (fun t ht => ?_)
      (fun _ _ _ => rfl) (fun _ => ⟨_, rfl, ?_⟩) (Or.inl rfl) ?_ ?_ ?_
    · simp [hnone, ht.symm]
    · cases op <;> trivial
    · rintro pc ⟨⟩ lst hlst
      cases op <;> cases hlst
    · intro lst heq
      cases op <;> cases heq
    · intro heq
      cases op <;> cases heq

theorem lockExtension (h : s.Transactional setup) (hlocked : s.Locked setup)
    {lst : List TraceExtensionHeader}
    (hpc : s.running (setup.thread o) = some (o, .lockExtension lst)) :
    (s.lockExtension setup o lst).Transactional setup := by
  have hpending := h.pending _ o _ lst hpc rfl
  unfold Storage.lockExtension
  dsimp only
  split_ifs
  · refine h.inside (c := .clear lst) hlocked hpc trivial (objects_setObject_of_ne o _ s) rfl
      trivial rfl ?_ (fun _ heq => by cases heq) (fun heq => by cases heq)
    rintro lst' ⟨⟩
    change Pending _ s.list (Function.update s.objects o _ o) _
    rw [Function.update_self]
    exact ⟨hpending.lst, hpending.hdr, hpending.found⟩
  · exact h

omit [DecidableEq P] [DecidableEq O] in
theorem clear (h : s.Transactional setup) (hlocked : s.Locked setup)
    {lst : List TraceExtensionHeader} (hpc : s.running (setup.thread o) = some (o, .clear lst)) :
    (s.clear setup o lst).Transactional setup := by
  obtain ⟨hobjects, hrunning, -, hlist, hlock⟩ := openFile_frame (s.objects o).hdr.id s
  refine h.inside (c := .writeList lst) hlocked hpc trivial (fun o' _ => congrFun hobjects o')
    (congrArg (Function.update · _ _) hrunning) trivial hlock ?_
    (fun _ heq => by cases heq) (fun heq => by cases heq)
  rintro lst' ⟨⟩
  change Pending _ (s.openFile (s.objects o).hdr.id).2.list
    ((s.openFile (s.objects o).hdr.id).2.objects o) lst
  rw [hlist, hobjects]
  exact h.pending _ o _ lst hpc rfl

theorem writeList (h : s.Transactional setup) (hlocked : s.Locked setup)
    {lst : List TraceExtensionHeader} {removed : Bool}
    (hpc : s.running (setup.thread o) = some (o, .writeList lst)) :
    (s.advance setup o (.writeList lst) removed).Transactional setup := by
  refine h.inside (c := .openWriter) hlocked hpc trivial (fun _ _ => rfl) rfl trivial rfl ?_
    (fun _ heq => by cases heq) ?_
  · rintro lst' ⟨⟩
  · have hpending := h.pending _ o _ lst hpc rfl
    refine fun _ => ⟨?_, hpending.hdr⟩
    change (s.objects o).hdr ∈ lst
    rw [hpending.lst]
    exact mem_store.mpr (Or.inl rfl)

omit [DecidableEq P] in
theorem closeWriter (h : s.Transactional setup) (hlocked : s.Locked setup)
    (hfree : s.listLock ≠ some (setup.thread o)) :
    (s.closeWriter setup o).Transactional setup := by
  unfold Storage.closeWriter
  dsimp only
  split_ifs
  · refine h.outside (c := some (.lockList .commit)) hlocked (objects_setObject_of_ne o _ s) rfl
      (fun _ _ => Iff.rfl) hfree ?_ (Or.inl rfl)
    rintro pc ⟨⟩ ⟨⟩
  · exact h.outside (c := none) hlocked (fun _ _ => rfl) rfl (fun _ _ => Iff.rfl) hfree
      (by simp) (Or.inl rfl)

omit [DecidableEq P] [DecidableEq O] in
theorem rewriteList (h : s.Transactional setup) (hlocked : s.Locked setup) {op : ListOperation}
    (hown : s.listLock = some (setup.thread o)) :
    (s.rewriteList setup o op).Transactional setup := by
  unfold Storage.rewriteList
  dsimp only
  split_ifs
  · refine h.unlock (c := some .release) hlocked hown (fun _ _ => rfl) rfl ?_ rfl
    rintro pc ⟨⟩ ⟨⟩
  · exact h.unlock (c := none) hlocked hown (fun _ _ => rfl) rfl (by simp) rfl

theorem release (h : s.Transactional setup) (hlocked : s.Locked setup)
    (hfree : s.listLock ≠ some (setup.thread o)) : (s.release setup o).Transactional setup := by
  obtain ⟨hobjects, hrunning, hlist, hlock, -, -⟩ := release_frame setup o s
  refine h.outside (c := none) hlocked (fun o' hne => ?_) hrunning (fun t _ => by rw [hlock])
    (by rwa [hlock]) (by simp) (Or.inl hlist)
  rw [hobjects, Function.update_of_ne hne]

theorem advance (h : s.Transactional setup) (hlocked : s.Locked setup) {pc : Pc} {removed : Bool}
    (hpc : s.running (setup.thread o) = some (o, pc))
    (hkeeps : KeepsLocks setup (.advance (setup.thread o) removed : Action P T O E) s) :
    (s.advance setup o pc removed).Transactional setup := by
  have houtside : ¬ pc.Critical → s.listLock ≠ some (setup.thread o) := by
    refine fun hout => h.unlocked fun o' pc' hpc' => ?_
    obtain ⟨rfl, rfl⟩ := Prod.mk.inj (Option.some.inj (hpc.symm.trans hpc'))
    exact hout
  have hown : pc.Critical → s.listLock = some (setup.thread o) := h.critical _ o pc hpc
  cases pc with
  | lockList op => exact h.lockList hlocked
  | readList => exact h.readList hlocked hpc (hkeeps.2 o hpc)
  | lockExtension lst => exact h.lockExtension hlocked hpc
  | clear lst => exact h.clear hlocked hpc
  | writeList lst => exact h.writeList hlocked hpc
  | openWriter =>
    obtain ⟨hobjects, hrunning, -, -, -⟩ := openFile_frame (s.objects o).hdr.id s
    refine h.unlock (c := none) hlocked (hown trivial) (fun o' hne => ?_)
      (congrArg (Function.update · _ _) hrunning) (by simp) rfl
    exact (Function.update_of_ne hne _ _).trans (congrFun hobjects o')
  | closeWriter => exact h.closeWriter hlocked (houtside id)
  | setReady =>
    change (s.setReady setup o).Transactional setup
    unfold Storage.setReady
    dsimp only
    split_ifs
    · exact h.unlock (c := none) hlocked (hown trivial) (objects_setObject_of_ne o _ s) rfl
        (by simp) rfl
    · exact h.unlock (c := none) hlocked (hown trivial) (fun _ _ => rfl) rfl (by simp) rfl
  | removeFile op =>
    refine h.inside (c := .rewriteList op) hlocked hpc trivial (objects_setObject_of_ne o _ s) rfl
      trivial rfl ?_ (fun _ heq => by cases heq) (fun heq => by cases heq)
    rintro lst ⟨⟩
  | rewriteList op => exact h.rewriteList hlocked (hown trivial)
  | release => exact h.release hlocked (houtside id)

omit [DecidableEq T] [DecidableEq O] in
theorem die (h : s.Transactional setup) (hlocked : s.Locked setup) (p : P) :
    (s.die setup p).Transactional setup := by
  refine ⟨fun t o pc hpc hin => ?_, fun t hlock => ?_, fun t o pc lst hpc hlst => ?_,
    fun t o lst hpc => ?_, fun t o hpc => ?_⟩
  · obtain ⟨hpc, hp, -⟩ := hlocked.survives hpc
    exact Option.filter_eq_some_iff.mpr ⟨h.critical t o pc hpc hin, by simpa using hp⟩
  · obtain ⟨hlock, hp⟩ := Option.filter_eq_some_iff.mp hlock
    obtain ⟨o, pc, hpc, hin⟩ := h.holder t hlock
    exact ⟨o, pc, by simpa [Storage.die, of_decide_eq_true hp] using hpc, hin⟩
  · obtain ⟨hpc, -, hobject⟩ := hlocked.survives hpc
    rw [hobject]
    exact h.pending t o pc lst hpc hlst
  · obtain ⟨hpc, -, hobject⟩ := hlocked.survives hpc
    rw [hobject]
    exact h.waiting t o lst hpc
  · obtain ⟨hpc, -, hobject⟩ := hlocked.survives hpc
    rw [hobject]
    exact h.written t o hpc

omit [DecidableEq P] [DecidableEq O] in
/-- A call that an idle thread begins. -/
theorem begins (h : s.Transactional setup) (hlocked : s.Locked setup) {c : Pc}
    (hidle : s.running (setup.thread o) = none) (hpc : ¬ c.Critical)
    (hobjects : ∀ o' ≠ o, s'.objects o' = s.objects o')
    (hrunning : s'.running = Function.update s.running (setup.thread o) (some (o, c)))
    (hlock : s'.listLock = s.listLock) (hlist : s'.list = s.list) : s'.Transactional setup := by
  refine h.outside (c := some c) hlocked hobjects hrunning (fun t _ => by rw [hlock]) ?_ ?_
    (Or.inl hlist)
  · rw [hlock]
    refine h.unlocked fun o' pc' hpc' => ?_
    rw [hidle] at hpc'
    cases hpc'
  · rintro pc ⟨⟩
    exact hpc

theorem step (h : s.Transactional setup) (hlocked : s.Locked setup) {action : Action P T O E}
    (hkeeps : KeepsLocks setup action s) : (s.step setup action).Transactional setup := by
  have hsteps := hlocked.steps action
  generalize s.step setup action = s' at hsteps
  cases hsteps with
  | construct o extName hidle =>
    exact h.begins (c := .lockList .construct) hlocked hidle.1 id
      (objects_setObject_of_ne o _ s) rfl
      rfl rfl
  | write o record hidle =>
    refine h.outside (c := none) hlocked (objects_setObject_of_ne o _ s) ?_
      (fun _ _ => Iff.rfl) ?_ (by simp) (Or.inl rfl)
    · exact (Function.update_eq_self_iff.mpr hidle.1.symm).symm
    · refine h.unlocked fun o' pc hpc => ?_
      rw [hidle.1] at hpc
      cases hpc
  | commit o hidle =>
    exact h.begins (c := .closeWriter) hlocked hidle.1 id (fun _ _ => rfl) rfl rfl rfl
  | remove o hidle =>
    exact h.begins (c := .lockList .remove) hlocked hidle.1 id (fun _ _ => rfl) rfl rfl rfl
  | destroy o hidle =>
    exact h.begins (c := .lockList .destroy) hlocked hidle.1 id (fun _ _ => rfl) rfl rfl rfl
  | release o hidle =>
    exact h.begins (c := .release) hlocked hidle.1 id (fun _ _ => rfl) rfl rfl rfl
  | advance o pc removed hpc => exact h.advance hlocked hpc hkeeps
  | die p => exact h.die hlocked p
  | stay => exact h

end Transactional

end Storage

end Octf.Extension
