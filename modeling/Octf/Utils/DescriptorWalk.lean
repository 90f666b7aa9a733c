import Octf.Utils.DescribedTypes

/-! The calls walk depth first over the types of fields, end at any recursion among the types, and
leave every message they reach with all packages it refers to. -/
namespace Octf.Utils
open Foundation FileDescriptorSetCreator

/-- The packages a message refers to can be used in its file. -/
def Complete (pool : DescriptorPool) (m : String) (s : FileDescriptorSetCreator) : Prop :=
  ∀ q ∈ pool.references m, s.Imports (pool.message m).package q

/-- The types to do are done: the order is that of the walk, and all new messages are complete. -/
structure Walked (pool : DescriptorPool) (todo order order' : List Item)
    (s s' : FileDescriptorSetCreator) : Prop where
  walk : DepthFirst pool.succ todo order order'
  described : Described pool order' s'
  keeps : s.Extends s'
  complete : ∀ m, Item.message m ∈ order' → Item.message m ∉ order → Complete pool m s'

namespace Walked

variable {pool : DescriptorPool} {todo rest order order' order'' : List Item}
  {s s' s'' : FileDescriptorSetCreator}

theorem nothing (h : Described pool order s) : Walked pool [] order order s s where
  walk := .done order
  described := h
  keeps := .refl s
  complete := fun _ hm hnot => absurd hm hnot

theorem append (h : Walked pool todo order order' s s')
    (hrest : Walked pool rest order' order'' s' s'') :
    Walked pool (todo ++ rest) order order'' s s'' where
  walk := h.walk.append hrest.walk
  described := hrest.described
  keeps := h.keeps.trans hrest.keeps
  complete := by
    intro m hm hnot
    by_cases hmem : Item.message m ∈ order'
    · intro q hq
      exact hrest.keeps _ _ (h.complete m hmem hnot q hq)
    · exact hrest.complete m hm hmem

end Walked

namespace DescriptorPool

variable (pool : DescriptorPool)

/-- How many messages are not described yet. -/
def remaining (order : List Item) : ℕ :=
  pool.messages.countP fun m => Item.message m ∉ order

variable {pool} {order order' : List Item} {s : FileDescriptorSetCreator} {fuel : ℕ}

theorem remaining_le_length (pool : DescriptorPool) (order : List Item) :
    pool.remaining order ≤ pool.messages.length := List.countP_le_length

theorem remaining_le (h : order <+: order') : pool.remaining order' ≤ pool.remaining order := by
  refine List.countP_mono_left fun m _ hm => ?_
  simp only [decide_eq_true_eq] at hm ⊢
  exact fun hmem => hm (h.subset hmem)

theorem remaining_lt {m : String} (hm : m ∈ pool.messages) (hnot : Item.message m ∉ order) :
    pool.remaining (order ++ [.message m]) < pool.remaining order := by
  obtain ⟨front, back, hsplit⟩ := List.append_of_mem hm
  have hle : ∀ names : List String,
      names.countP (fun n => Item.message n ∉ order ++ [.message m]) ≤
        names.countP fun n => Item.message n ∉ order := by
    intro names
    refine List.countP_mono_left fun n _ hn => ?_
    simp only [decide_eq_true_eq] at hn ⊢
    exact fun hmem => hn (List.mem_append_left _ hmem)
  have hfront := hle front
  have hback := hle back
  simp only [remaining, hsplit, List.countP_append, List.countP_cons]
  simp only [hnot, List.mem_append, List.mem_singleton, or_true, not_true_eq_false,
    not_false_eq_true, decide_true, decide_false, Bool.false_eq_true, if_true, if_false] at *
  omega

/-- What `addMessageDesc` does with enough fuel for the messages that are left. -/
def AddsMessages (pool : DescriptorPool) (fuel : ℕ) : Prop :=
  ∀ m order s, Described pool order s → m ∈ pool.messages → pool.remaining order < fuel →
    ∃ s' order', pool.addMessageDesc fuel m s = some s' ∧
      Walked pool [.message m] order order' s s'

/-- The type of one field of a message is described, and its package can be used. -/
theorem addField_spec (hrec : pool.AddsMessages fuel) {m : String} {f : FieldDescriptor}
    (hm : m ∈ pool.messages) (hf : f ∈ (pool.message m).fields) (h : Described pool order s)
    (hmem : .message m ∈ order) (hfuel : pool.remaining order < fuel) :
    ∃ s' order', pool.addField (pool.addMessageDesc fuel) (pool.message m).package f s = some s' ∧
      Walked pool f.item.toList order order' s s' ∧
      ∀ i ∈ f.item.toList, s'.Imports (pool.message m).package (pool.package i) := by
  have hitem : ∀ i, f.item = some i → i ∈ pool.fieldItems m := fun i hi =>
    mem_fieldItems.mpr ⟨f, hf, hi⟩
  unfold addField
  split
  · rename_i t htype
    have hi : f.item = some (.message t) := by rw [FieldDescriptor.item, htype]
    have hdep := h.addDependency hmem (List.mem_map_of_mem (hitem _ hi))
    have hext := extends_addDependency (s := s) (pool.message m).package
      (pool.package (.message t))
    have himports := imports_addDependency (h.package_mem hmem) (pool.package (.message t))
    obtain ⟨s', order', hrun, hwalked⟩ := hrec t order _ hdep (valid_succ (i := .message m) hm
      (hitem _ hi)) hfuel
    refine ⟨s', order', hrun, ?_, ?_⟩
    · rw [hi]
      exact { hwalked with keeps := hext.trans hwalked.keeps }
    · rw [hi]
      intro i hmem'
      obtain rfl := Option.mem_some_iff.mp (Option.mem_toList.mp hmem')
      exact hwalked.keeps _ _ himports
  · rename_i t htype
    have hi : f.item = some (.enumField f.fullName t) := by rw [FieldDescriptor.item, htype]
    have hvalid : pool.Valid (.enumField f.fullName t) := ⟨m, hm, hitem _ hi⟩
    rw [hi]
    have hall : ∀ s' : FileDescriptorSetCreator,
        s'.Imports (pool.message m).package (pool.enum t).package →
        ∀ i ∈ (some (Item.enumField f.fullName t)).toList,
          s'.Imports (pool.message m).package (pool.package i) := by
      intro s' himports i hmem'
      obtain rfl := Option.mem_some_iff.mp (Option.mem_toList.mp hmem')
      exact himports
    have hknown : f.fullName ∈ s.knownTypes ↔ _ := h.key_mem_iff hvalid
    by_cases hseen : Item.enumField f.fullName t ∈ order
    · rw [if_pos (hknown.mpr hseen)]
      refine ⟨s, order, rfl, ?_, hall s (h.enumImported m hm f.fullName t hseen (hitem _ hi))⟩
      exact { Walked.nothing h with walk := .skip hseen (.done order) }
    · rw [if_neg (mt hknown.mp hseen)]
      have hdep := h.addDependency hmem (List.mem_map_of_mem (hitem _ hi))
      have himports := imports_addDependency (h.package_mem hmem) (pool.enum t).package
      have hext := extends_addDependency (s := s) (pool.message m).package (pool.enum t).package
      have hdescribed := hdep.describe hvalid fun m' hm' name t' heq hfield => by
        cases heq
        rw [fieldItems_unique hm' hm hfield (hitem _ hi)]
        exact himports
      refine ⟨_, order ++ [.enumField f.fullName t], rfl, ⟨.single hseen (.done _), hdescribed,
        hext.trans (extends_describe _), ?_⟩, hall _ (extends_describe _ _ _ himports)⟩
      intro m' hm' hnot
      have hm' := (List.mem_append.mp hm').resolve_left hnot
      exact absurd (List.mem_singleton.mp hm') (by simp)
  · rename_i htype
    have hi : f.item = none := by rw [FieldDescriptor.item, htype]
    refine ⟨s, order, rfl, ?_, ?_⟩
    · rw [hi]
      exact .nothing h
    · simp [hi]

/-- The loop over the fields, or what is left of them. -/
theorem addFields_spec (hrec : pool.AddsMessages fuel) {m : String} (hm : m ∈ pool.messages)
    {fields : List FieldDescriptor} (hfields : ∀ f ∈ fields, f ∈ (pool.message m).fields)
    (h : Described pool order s) (hmem : .message m ∈ order)
    (hfuel : pool.remaining order < fuel) :
    ∃ s' order', fields.foldlM (fun s f =>
        pool.addField (pool.addMessageDesc fuel) (pool.message m).package f s) s = some s' ∧
      Walked pool (fields.filterMap (·.item)) order order' s s' ∧
      ∀ i ∈ fields.filterMap (·.item), s'.Imports (pool.message m).package (pool.package i) := by
  induction fields generalizing order s with
  | nil => exact ⟨s, order, rfl, .nothing h, by simp⟩
  | cons f fields ih =>
    obtain ⟨s₁, order₁, hrun₁, hwalked₁, himports₁⟩ :=
      addField_spec hrec hm (hfields f List.mem_cons_self) h hmem hfuel
    have hgrown := hwalked₁.walk.isPrefix
    obtain ⟨s₂, order₂, hrun₂, hwalked₂, himports₂⟩ :=
      ih (fun f' hf' => hfields f' (List.mem_cons_of_mem _ hf')) hwalked₁.described
        (hgrown.subset hmem) (Nat.lt_of_le_of_lt (remaining_le hgrown) hfuel)
    have hsplit : (f :: fields).filterMap (·.item) =
        f.item.toList ++ fields.filterMap (·.item) := by
      rw [List.filterMap_cons]
      cases f.item <;> rfl
    refine ⟨s₂, order₂, ?_, hsplit ▸ hwalked₁.append hwalked₂, ?_⟩
    · rw [List.foldlM_cons, hrun₁]
      exact hrun₂
    · rw [hsplit]
      intro i hi
      rcases List.mem_append.mp hi with hi | hi
      · exact hwalked₂.keeps _ _ (himports₁ i hi)
      · exact himports₂ i hi

/-- A call walks from its message, at any depth of the recursion. -/
theorem addMessageDesc_spec (pool : DescriptorPool) (fuel : ℕ) : pool.AddsMessages fuel := by
  induction fuel with
  | zero => intro m order s _ _ hfuel; exact absurd hfuel (Nat.not_lt_zero _)
  | succ fuel ih =>
    intro m order s h hm hfuel
    have hvalid : pool.Valid (.message m) := hm
    have hknown : m ∈ s.knownTypes ↔ _ := h.key_mem_iff hvalid
    rw [addMessageDesc]
    by_cases hseen : Item.message m ∈ order
    · rw [if_pos (hknown.mpr hseen)]
      exact ⟨s, order, rfl, { Walked.nothing h with walk := .skip hseen (.done order) }⟩
    · rw [if_neg (mt hknown.mp hseen)]
      have hdescribed := h.describe hvalid fun m' _ name t heq => by cases heq
      have hless := remaining_lt hm hseen
      obtain ⟨s', order', hrun, hwalked, himports⟩ :=
        addFields_spec ih hm (fun f hf => hf) hdescribed (by simp) (by omega)
      refine ⟨s', order', hrun, .single hseen hwalked.walk, hwalked.described,
        (extends_describe _).trans hwalked.keeps, ?_⟩
      intro m' hm' hnot
      by_cases heq : m' = m
      · subst heq
        intro q hq
        obtain ⟨i, hi, rfl⟩ := List.mem_map.mp hq
        exact himports i hi
      · exact hwalked.complete m' hm' (by simp [hnot, heq])

/-- All calls end, the files describe the types in the order of the walk, and every message that
is reached can use the packages it refers to. -/
theorem addMessageDescs_spec (pool : DescriptorPool) {calls : List String}
    (hcalls : ∀ m ∈ calls, m ∈ pool.messages) (hfuel : pool.messages.length < fuel) :
    ∃ s order, pool.addMessageDescs fuel calls = some s ∧
      Walked pool (calls.map .message) [] order .new s := by
  have hrun : ∀ (calls : List String) (order : List Item) (s : FileDescriptorSetCreator),
      (∀ m ∈ calls, m ∈ pool.messages) → Described pool order s →
      ∃ s' order', calls.foldlM (fun s m => pool.addMessageDesc fuel m s) s = some s' ∧
        Walked pool (calls.map .message) order order' s s' := by
    intro calls
    induction calls with
    | nil => exact fun order s _ h => ⟨s, order, rfl, .nothing h⟩
    | cons m calls ih =>
      intro order s hcalls h
      obtain ⟨s₁, order₁, hrun₁, hwalked₁⟩ :=
        addMessageDesc_spec pool fuel m order s h (hcalls m List.mem_cons_self)
          (Nat.lt_of_le_of_lt (remaining_le_length pool order) hfuel)
      obtain ⟨s₂, order₂, hrun₂, hwalked₂⟩ :=
        ih order₁ s₁ (fun m' hm' => hcalls m' (List.mem_cons_of_mem _ hm')) hwalked₁.described
      refine ⟨s₂, order₂, ?_, hwalked₁.append hwalked₂⟩
      rw [List.foldlM_cons, hrun₁]
      exact hrun₂
  exact hrun calls [] .new hcalls (.empty pool)

end DescriptorPool

end Octf.Utils
