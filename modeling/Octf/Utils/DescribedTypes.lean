import Octf.Foundation.FirstOccurrence
import Octf.Utils.FileDescriptorSet

/-! The files once some types are described: one for each package, the one first reached at the
very back, with a copy of every type and only packages that the fields of a message refer to. -/
namespace Octf.Utils
open Foundation

def Item.messageName : Item → Option String
  | .message fullName => some fullName
  | .enumField _ _ => none

def Item.enumName : Item → Option String
  | .message _ => none
  | .enumField _ type => some type

namespace DescriptorPool

variable (pool : DescriptorPool)

def package : Item → String
  | .message m => (pool.message m).package
  | .enumField _ type => (pool.enum type).package

/-- The types of the fields of a message. -/
def fieldItems (m : String) : List Item := (pool.message m).fields.filterMap (·.item)

/-- Only messages have fields. -/
def succ : Item → List Item
  | .message m => pool.fieldItems m
  | .enumField _ _ => []

/-- The packages that the fields of a message refer to. -/
def references (m : String) : List String := (pool.fieldItems m).map pool.package

def Valid : Item → Prop
  | .message m => m ∈ pool.messages
  | .enumField f type => ∃ m ∈ pool.messages, Item.enumField f type ∈ pool.fieldItems m

variable {pool}

theorem mem_fieldItems {m : String} {i : Item} :
    i ∈ pool.fieldItems m ↔ ∃ f ∈ (pool.message m).fields, f.item = some i :=
  List.mem_filterMap

theorem item_eq_message {f : FieldDescriptor} {t : String} (h : f.item = some (.message t)) :
    f.type = .message t := by
  unfold FieldDescriptor.item at h
  split at h <;> simp_all

theorem item_eq_enumField {f : FieldDescriptor} {name t : String}
    (h : f.item = some (.enumField name t)) : f.fullName = name ∧ f.type = .enum t := by
  unfold FieldDescriptor.item at h
  split at h <;> simp_all

theorem valid_succ {i j : Item} (hi : pool.Valid i) (hj : j ∈ pool.succ i) : pool.Valid j := by
  cases i with
  | message m =>
    cases j with
    | message t =>
      obtain ⟨f, hf, hitem⟩ := mem_fieldItems.mp hj
      exact pool.closed m hi f hf t (item_eq_message hitem)
    | enumField name t => exact ⟨m, hi, hj⟩
  | enumField name t => exact absurd hj List.not_mem_nil

/-- The names that are remembered tell the types apart. -/
theorem key_injective {i j : Item} (hi : pool.Valid i) (hj : pool.Valid j) (h : i.key = j.key) :
    i = j := by
  have hmixed : ∀ m name t, pool.Valid (.message m) → pool.Valid (.enumField name t) →
      m ≠ name := by
    rintro m name t hm ⟨m', hm', hmem⟩ rfl
    obtain ⟨f, hf, hitem⟩ := mem_fieldItems.mp hmem
    obtain ⟨rfl, -⟩ := item_eq_enumField hitem
    exact pool.fieldNotMessage m' hm' f hf hm
  cases i with
  | message m =>
    cases j with
    | message m' => exact congrArg Item.message h
    | enumField name t => exact absurd h (hmixed m name t hi hj)
  | enumField name t =>
    cases j with
    | message m => exact absurd h.symm (hmixed m name t hj hi)
    | enumField name' t' =>
      obtain rfl : name = name' := h
      obtain ⟨m, hm, hmem⟩ := hi
      obtain ⟨m', hm', hmem'⟩ := hj
      obtain ⟨f, hf, hitem⟩ := mem_fieldItems.mp hmem
      obtain ⟨f', hf', hitem'⟩ := mem_fieldItems.mp hmem'
      have hname := (item_eq_enumField hitem).1.trans (item_eq_enumField hitem').1.symm
      obtain ⟨-, rfl⟩ := pool.fieldUnique m hm m' hm' f hf f' hf' hname
      exact Option.some.inj (hitem.symm.trans hitem')

/-- A field belongs to one message. -/
theorem fieldItems_unique {m m' name t : String} (hm : m ∈ pool.messages)
    (hm' : m' ∈ pool.messages) (h : .enumField name t ∈ pool.fieldItems m)
    (h' : .enumField name t ∈ pool.fieldItems m') : m = m' := by
  obtain ⟨f, hf, hitem⟩ := mem_fieldItems.mp h
  obtain ⟨f', hf', hitem'⟩ := mem_fieldItems.mp h'
  have hname := (item_eq_enumField hitem).1.trans (item_eq_enumField hitem').1.symm
  exact (pool.fieldUnique m hm m' hm' f hf f' hf' hname).1

end DescriptorPool

namespace FileDescriptorProto

variable (fd : FileDescriptorProto) (item : Item)

@[simp] theorem addType_name : (fd.addType item).name = fd.name := by cases item <;> rfl

@[simp] theorem addType_package : (fd.addType item).package = fd.package := by cases item <;> rfl

@[simp] theorem addType_dependency : (fd.addType item).dependency = fd.dependency := by
  cases item <;> rfl

@[simp] theorem addType_messageType :
    (fd.addType item).messageType = fd.messageType ++ item.messageName.toList := by
  cases item <;> simp [addType, Item.messageName]

@[simp] theorem addType_enumType :
    (fd.addType item).enumType = fd.enumType ++ item.enumName.toList := by
  cases item <;> simp [addType, Item.enumName]

end FileDescriptorProto

namespace FileDescriptorSetCreator

variable {s : FileDescriptorSetCreator} {package : String}

/-- The packages that have a file, from front to back. -/
def packages (s : FileDescriptorSetCreator) : List String := s.fdSet.map (·.package)

/-- Only the file of the package is another one. -/
theorem modifyFile_eq (hnodup : s.packages.Nodup) (hmem : package ∈ s.packages)
    (f : FileDescriptorProto → FileDescriptorProto) :
    ∃ front fd back, s.fdSet = front ++ fd :: back ∧ fd.package = package ∧
      (s.modifyFile package f).fdSet = front ++ f fd :: back := by
  obtain ⟨fd, hfd, rfl⟩ := List.mem_map.mp hmem
  obtain ⟨front, back, hsplit⟩ := List.append_of_mem hfd
  refine ⟨front, fd, back, hsplit, rfl, ?_⟩
  have hothers : ∀ file ∈ front ++ back, file.package ≠ fd.package := by
    intro file hfile heq
    rw [packages, hsplit, List.map_append, List.map_cons] at hnodup
    have hnot := (List.nodup_middle.mp hnodup).notMem
    rw [← List.map_append, ← heq] at hnot
    exact hnot (List.mem_map_of_mem hfile)
  have hsame : ∀ files : List FileDescriptorProto, (∀ file ∈ files, file.package ≠ fd.package) →
      files.map (fun file => if file.package = fd.package then f file else file) = files := by
    intro files hfiles
    exact (List.map_congr_left fun file hfile => if_neg (hfiles file hfile)).trans
      (List.map_id' files)
  rw [modifyFile, hsplit, List.map_append, List.map_cons, if_pos rfl,
    hsame front fun file hfile => hothers file (List.mem_append_left _ hfile),
    hsame back fun file hfile => hothers file (List.mem_append_right _ hfile)]

theorem mem_modifyFile {f : FileDescriptorProto → FileDescriptorProto}
    {file : FileDescriptorProto} :
    file ∈ (s.modifyFile package f).fdSet ↔
      ∃ fd ∈ s.fdSet, (if fd.package = package then f fd else fd) = file :=
  List.mem_map

/-- What a change of files keeps. -/
theorem modifyFile_map {β : Type*} {f : FileDescriptorProto → FileDescriptorProto}
    (g : FileDescriptorProto → β) (hg : ∀ fd, g (f fd) = g fd) :
    (s.modifyFile package f).fdSet.map g = s.fdSet.map g := by
  rw [modifyFile, List.map_map]
  refine List.map_congr_left fun fd _ => ?_
  rw [Function.comp_apply]
  split
  · exact hg fd
  · rfl

theorem packages_getFileDesc :
    (s.getFileDesc package).packages =
      if package ∈ s.packages then s.packages else package :: s.packages := by
  have hiff : (∃ fd ∈ s.fdSet, fd.package = package) ↔ package ∈ s.packages := List.mem_map.symm
  by_cases hmem : package ∈ s.packages
  · rw [getFileDesc, if_pos (hiff.mpr hmem), if_pos hmem]
  · rw [getFileDesc, if_neg (mt hiff.mp hmem), if_neg hmem]
    rfl

theorem mem_getFileDesc {fd : FileDescriptorProto} (h : fd ∈ (s.getFileDesc package).fdSet) :
    fd ∈ s.fdSet ∨ fd = ⟨package, package, [], [], []⟩ := by
  unfold getFileDesc at h
  split at h
  · exact .inl h
  · exact (List.mem_cons.mp h).symm

theorem mem_getFileDesc_of_mem {fd : FileDescriptorProto} (h : fd ∈ s.fdSet) :
    fd ∈ (s.getFileDesc package).fdSet := by
  unfold getFileDesc
  split
  · exact h
  · exact List.mem_cons_of_mem _ h

/-- A new file is empty. -/
theorem flatMap_getFileDesc {β : Type*} (g : FileDescriptorProto → List β)
    (hg : g ⟨package, package, [], [], []⟩ = []) :
    (s.getFileDesc package).fdSet.flatMap g = s.fdSet.flatMap g := by
  unfold getFileDesc
  split
  · rfl
  · rw [List.flatMap_cons, hg, List.nil_append]

/-- A type of the second package can be used in the file of the first. -/
def Imports (s : FileDescriptorSetCreator) (p q : String) : Prop :=
  q = p ∨ ∃ fd ∈ s.fdSet, fd.package = p ∧ q ∈ fd.dependency

/-- No import is lost. -/
def Extends (s s' : FileDescriptorSetCreator) : Prop := ∀ p q, s.Imports p q → s'.Imports p q

theorem Extends.refl (s : FileDescriptorSetCreator) : s.Extends s := fun _ _ h => h

theorem Extends.trans {s' s'' : FileDescriptorSetCreator} (h : s.Extends s')
    (h' : s'.Extends s'') : s.Extends s'' := fun p q hpq => h' p q (h p q hpq)

theorem extends_modifyFile {f : FileDescriptorProto → FileDescriptorProto}
    (hpackage : ∀ fd, (f fd).package = fd.package)
    (hdependency : ∀ fd, ∀ q ∈ fd.dependency, q ∈ (f fd).dependency) :
    s.Extends (s.modifyFile package f) := by
  rintro p q (rfl | ⟨fd, hfd, rfl, hq⟩)
  · exact .inl rfl
  · refine .inr ⟨_, mem_modifyFile.mpr ⟨fd, hfd, rfl⟩, ?_⟩
    split
    · exact ⟨hpackage fd, hdependency fd q hq⟩
    · exact ⟨rfl, hq⟩

theorem extends_describe (item : Item) : s.Extends (s.describe package item) := by
  have hget : s.Extends (s.getFileDesc package) := by
    rintro p q (rfl | ⟨fd, hfd, rfl, hq⟩)
    · exact .inl rfl
    · exact .inr ⟨fd, mem_getFileDesc_of_mem hfd, rfl, hq⟩
  have hmodify : (s.getFileDesc package).Extends (s.describe package item) :=
    extends_modifyFile (fun fd => by simp) fun fd q hq => by simpa using hq
  exact hget.trans hmodify

theorem extends_addDependency (p q : String) : s.Extends (s.addDependency p q) := by
  refine extends_modifyFile (fun fd => ?_) fun fd q hq => ?_
  · split <;> rfl
  · split
    · exact List.mem_append_left _ hq
    · exact hq

theorem imports_addDependency {p : String} (hp : p ∈ s.packages) (q : String) :
    (s.addDependency p q).Imports p q := by
  obtain ⟨fd, hfd, rfl⟩ := List.mem_map.mp hp
  by_cases hq : q = fd.package
  · exact .inl hq
  · refine .inr ⟨_, mem_modifyFile.mpr ⟨fd, hfd, rfl⟩, ?_⟩
    rw [if_pos rfl]
    split
    · exact ⟨rfl, by simp⟩
    · rename_i h
      exact ⟨rfl, by_contra fun hnot => h ⟨fun heq => hq heq.symm, hnot⟩⟩

end FileDescriptorSetCreator

open FileDescriptorSetCreator

/-- The files hold the types of the order, each in that of its package. -/
structure Described (pool : DescriptorPool) (order : List Item) (s : FileDescriptorSetCreator) :
    Prop where
  valid : ∀ i ∈ order, pool.Valid i
  known : s.knownTypes = order.map Item.key
  files : s.packages = (order.map pool.package).reverse.dedup
  named : ∀ fd ∈ s.fdSet, fd.name = fd.package
  messages : (s.fdSet.flatMap (·.messageType)).Perm (order.filterMap Item.messageName)
  enums : (s.fdSet.flatMap (·.enumType)).Perm (order.filterMap Item.enumName)
  placed : ∀ fd ∈ s.fdSet, ∀ m ∈ fd.messageType, (pool.message m).package = fd.package
  needed : ∀ fd ∈ s.fdSet, ∀ q ∈ fd.dependency, q ≠ fd.package ∧
    ∃ m, Item.message m ∈ order ∧ (pool.message m).package = fd.package ∧ q ∈ pool.references m
  enumImported : ∀ m ∈ pool.messages, ∀ name t, Item.enumField name t ∈ order →
    Item.enumField name t ∈ pool.fieldItems m →
    s.Imports (pool.message m).package (pool.enum t).package

namespace Described

variable {pool : DescriptorPool} {order : List Item} {s : FileDescriptorSetCreator}

theorem empty (pool : DescriptorPool) : Described pool [] .new where
  valid := by simp
  known := rfl
  files := rfl
  named := by simp [new]
  messages := .nil
  enums := .nil
  placed := by simp [new]
  needed := by simp [new]
  enumImported := by simp

theorem package_mem (h : Described pool order s) {i : Item} (hi : i ∈ order) :
    pool.package i ∈ s.packages := by
  rw [h.files]
  simpa using ⟨i, hi, rfl⟩

/-- A type is remembered exactly when it is in the order. -/
theorem key_mem_iff (h : Described pool order s) {i : Item} (hi : pool.Valid i) :
    i.key ∈ s.knownTypes ↔ i ∈ order := by
  rw [h.known, List.mem_map]
  constructor
  · rintro ⟨j, hj, hkey⟩
    exact DescriptorPool.key_injective (h.valid j hj) hi hkey ▸ hj
  · intro hmem
    exact ⟨i, hmem, rfl⟩

/-- An import of a package that a message of the file refers to. -/
theorem addDependency (h : Described pool order s) {m q : String} (hm : .message m ∈ order)
    (hq : q ∈ pool.references m) :
    Described pool order (s.addDependency (pool.message m).package q) where
  valid := h.valid
  known := h.known
  files := by
    rw [← h.files]
    exact modifyFile_map _ fun fd => by split <;> rfl
  named := by
    intro file hfile
    obtain ⟨fd, hfd, rfl⟩ := mem_modifyFile.mp hfile
    have hname := h.named fd hfd
    split_ifs <;> exact hname
  messages := by
    refine .trans (.of_eq ?_) h.messages
    rw [List.flatMap_def, List.flatMap_def]
    exact congrArg List.flatten (modifyFile_map _ fun fd => by split <;> rfl)
  enums := by
    refine .trans (.of_eq ?_) h.enums
    rw [List.flatMap_def, List.flatMap_def]
    exact congrArg List.flatten (modifyFile_map _ fun fd => by split <;> rfl)
  placed := by
    intro file hfile
    obtain ⟨fd, hfd, rfl⟩ := mem_modifyFile.mp hfile
    have hplaced := h.placed fd hfd
    split_ifs <;> exact hplaced
  needed := by
    intro file hfile
    obtain ⟨fd, hfd, rfl⟩ := mem_modifyFile.mp hfile
    have hneeded := h.needed fd hfd
    split_ifs with hpackage hnew
    · intro q' hq'
      rcases List.mem_append.mp hq' with hq' | hq'
      · exact hneeded q' hq'
      · obtain rfl := List.mem_singleton.mp hq'
        exact ⟨fun heq => hnew.1 heq.symm, m, hm, hpackage.symm, hq⟩
    · exact hneeded
    · exact hneeded
  enumImported := fun m' hm' name t hmem hfield =>
    extends_addDependency _ _ _ _ (h.enumImported m' hm' name t hmem hfield)

/-- What one file gets more, the set has more. -/
theorem flatMap_perm {β : Type*} (g : FileDescriptorProto → List β) {fd fd' : FileDescriptorProto}
    {front back : List FileDescriptorProto} {more : List β} (hg : g fd' = g fd ++ more) :
    ((front ++ fd' :: back).flatMap g).Perm ((front ++ fd :: back).flatMap g ++ more) := by
  simp only [List.flatMap_append, List.flatMap_cons, hg, List.append_assoc]
  exact (List.perm_append_comm.append_left _).append_left _

/-- One more type, in the file of its package. -/
theorem describe (h : Described pool order s) {i : Item} (hi : pool.Valid i)
    (himported : ∀ m ∈ pool.messages, ∀ name t, i = .enumField name t → i ∈ pool.fieldItems m →
      s.Imports (pool.message m).package (pool.enum t).package) :
    Described pool (order ++ [i]) (s.describe (pool.package i) i) := by
  have hfiles : (s.getFileDesc (pool.package i)).packages =
      ((order ++ [i]).map pool.package).reverse.dedup := by
    rw [packages_getFileDesc, List.map_append, List.map_singleton, dedup_reverse_append, h.files]
    simp only [List.mem_dedup, List.mem_reverse]
  have hmem : pool.package i ∈ (s.getFileDesc (pool.package i)).packages := by simp [hfiles]
  obtain ⟨front, fd, back, hsplit, hpackage, hmodify⟩ :=
    modifyFile_eq (hfiles ▸ List.nodup_dedup _) hmem (·.addType i)
  -- what is known of a file holds of those before it and of a new one
  have hnamed : ∀ file ∈ front ++ fd :: back, file.name = file.package := by
    intro file hfile
    rcases mem_getFileDesc (hsplit ▸ hfile) with hfile | rfl
    · exact h.named file hfile
    · rfl
  have hplaced : ∀ file ∈ front ++ fd :: back, ∀ m ∈ file.messageType,
      (pool.message m).package = file.package := by
    intro file hfile
    rcases mem_getFileDesc (hsplit ▸ hfile) with hfile | rfl
    · exact h.placed file hfile
    · simp
  have hneeded : ∀ file ∈ front ++ fd :: back, ∀ q ∈ file.dependency, q ≠ file.package ∧
      ∃ m, Item.message m ∈ order ++ [i] ∧ (pool.message m).package = file.package ∧
        q ∈ pool.references m := by
    intro file hfile q hq
    rcases mem_getFileDesc (hsplit ▸ hfile) with hfile | rfl
    · obtain ⟨hne, m, hm, hrest⟩ := h.needed file hfile q hq
      exact ⟨hne, m, List.mem_append_left _ hm, hrest⟩
    · exact absurd hq List.not_mem_nil
  have hcases : ∀ file ∈ front ++ fd.addType i :: back,
      file ∈ front ++ fd :: back ∨ file = fd.addType i := by
    simp only [List.mem_append, List.mem_cons]
    tauto
  have hfd : fd ∈ front ++ fd :: back := by simp
  refine ⟨?_, ?_, ?_, ?_, ?_, ?_, ?_, ?_, ?_⟩
  · intro j hj
    rcases List.mem_append.mp hj with hj | hj
    · exact h.valid j hj
    · exact List.mem_singleton.mp hj ▸ hi
  · change (s.getFileDesc (pool.package i)).knownTypes ++ [i.key] = _
    have hknown : (s.getFileDesc (pool.package i)).knownTypes = s.knownTypes := by
      unfold getFileDesc
      split <;> rfl
    rw [hknown, h.known, List.map_append, List.map_singleton]
  · rw [← hfiles]
    exact modifyFile_map _ fun fd => by simp
  · intro file hfile
    rcases hcases file (hmodify ▸ hfile) with hfile | rfl
    · exact hnamed file hfile
    · simpa using hnamed fd hfd
  · refine (List.Perm.of_eq (congrArg _ hmodify)).trans ?_
    refine (flatMap_perm (·.messageType) (fd.addType_messageType i)).trans ?_
    rw [← hsplit, flatMap_getFileDesc _ rfl, List.filterMap_append]
    refine h.messages.append (.of_eq ?_)
    cases i <;> rfl
  · refine (List.Perm.of_eq (congrArg _ hmodify)).trans ?_
    refine (flatMap_perm (·.enumType) (fd.addType_enumType i)).trans ?_
    rw [← hsplit, flatMap_getFileDesc _ rfl, List.filterMap_append]
    refine h.enums.append (.of_eq ?_)
    cases i <;> rfl
  · intro file hfile
    rcases hcases file (hmodify ▸ hfile) with hfile | rfl
    · exact hplaced file hfile
    · simp only [FileDescriptorProto.addType_messageType, FileDescriptorProto.addType_package,
        List.mem_append, Option.mem_toList]
      rintro m (hm | hm)
      · exact hplaced fd hfd m hm
      · cases i with
        | message m' =>
          obtain rfl := Option.some.inj hm
          exact hpackage.symm
        | enumField name type => exact absurd hm (by simp [Item.messageName])
  · intro file hfile
    rcases hcases file (hmodify ▸ hfile) with hfile | rfl
    · exact hneeded file hfile
    · simpa using hneeded fd hfd
  · intro m hm name t hmem hfield
    refine extends_describe i _ _ ?_
    rcases List.mem_append.mp hmem with hmem | hmem
    · exact h.enumImported m hm name t hmem hfield
    · obtain rfl := List.mem_singleton.mp hmem
      exact himported m hm name t rfl hfield

end Described

end Octf.Utils
