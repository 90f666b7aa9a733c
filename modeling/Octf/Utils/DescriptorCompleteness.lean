import Octf.Utils.DescriptorWalk

/-! Every type that is reached is described once, under its own name, when no reached type is
declared in a message and no two reached fields have one enumeration. -/
namespace Octf.Utils
open Foundation FileDescriptorSetCreator
namespace DescriptorPool

/-- The messages a type is declared in. -/
def containing (pool : DescriptorPool) : Item → List String
  | .message m => (pool.message m).containing
  | .enumField _ type => (pool.enum type).containing

/-- A type that the fields lead to from one of the calls. -/
def Reached (pool : DescriptorPool) (calls : List String) (i : Item) : Prop :=
  ∃ m ∈ calls.map Item.message, Relation.ReflTransGen (Edge pool.succ) m i

/-- The copies of a type in all files, each by the messages that the type is declared in that was
copied with all that is in it: for a copy under the type's own name there are none. -/
def copies (pool : DescriptorPool) (s : FileDescriptorSetCreator) : Item → List (List String)
  | .message m =>
    ((s.fdSet.flatMap (·.messageType)).filter fun n =>
      n = m ∨ n ∈ (pool.message m).containing).map fun n => (pool.message n).containing
  | .enumField _ type =>
    ((s.fdSet.flatMap (·.enumType)).filter (· = type)).map (fun n => (pool.enum n).containing) ++
      ((s.fdSet.flatMap (·.messageType)).filter (· ∈ (pool.enum type).containing)).map fun n =>
        (pool.message n).containing

/-- Each reached type is described once, and each file imports what the messages refer to that are
copied to it. -/
structure DescribesAll (pool : DescriptorPool) (calls : List String)
    (s : FileDescriptorSetCreator) : Prop where
  once : ∀ i, pool.Reached calls i → pool.copies s i = [[]]
  imported : ∀ fd ∈ s.fdSet, ∀ n ∈ fd.messageType, ∀ m ∈ pool.messages,
    m = n ∨ n ∈ (pool.message m).containing →
      ∀ q ∈ pool.references m, q = fd.package ∨ q ∈ fd.dependency

structure Describable (pool : DescriptorPool) (calls : List String) : Prop where
  topLevel : ∀ i, pool.Reached calls i → pool.containing i = []
  oneField : ∀ f f' type, pool.Reached calls (.enumField f type) →
    pool.Reached calls (.enumField f' type) → f = f'
  /-- what is declared in a reached message refers to no package that its file does not need -/
  nested : ∀ n, pool.Reached calls (.message n) → ∀ m ∈ pool.messages,
    n ∈ (pool.message m).containing → ∀ q ∈ pool.references m, q = (pool.message n).package ∨
      ∃ m', pool.Reached calls (.message m') ∧
        (pool.message m').package = (pool.message n).package ∧ q ∈ pool.references m'

variable {pool : DescriptorPool} {calls : List String} {order : List Item}
  {s : FileDescriptorSetCreator}

theorem mem_messageNames {m : String} :
    m ∈ order.filterMap Item.messageName ↔ Item.message m ∈ order := by
  rw [List.mem_filterMap]
  constructor
  · rintro ⟨i, hi, hname⟩
    cases i with
    | message m' => exact Option.some.inj hname ▸ hi
    | enumField f type => exact absurd hname (by simp [Item.messageName])
  · intro hm
    exact ⟨_, hm, rfl⟩

theorem count_messageNames (hnodup : order.Nodup) {m : String} (hm : .message m ∈ order) :
    (order.filterMap Item.messageName).count m = 1 := by
  have hiff : ∀ i : Item, (i.messageName == some m) = (i == .message m) := by
    intro i
    cases i <;> simp [Item.messageName]
  rw [List.count_filterMap, funext hiff]
  exact List.count_eq_one_of_mem hnodup hm

/-- A list with a count of one has no other member with the property. -/
theorem count_enumNames_le {f f' type : String}
    (hcount : (order.filterMap Item.enumName).count type = 1) (hf : .enumField f type ∈ order)
    (hf' : .enumField f' type ∈ order) : f = f' := by
  rw [List.count_filterMap, List.countP_eq_length_filter, List.length_eq_one_iff] at hcount
  obtain ⟨i, hi⟩ := hcount
  have hmem : ∀ g, .enumField g type ∈ order → .enumField g type = i := by
    intro g hg
    refine List.mem_singleton.mp (hi ▸ List.mem_filter.mpr ⟨hg, ?_⟩)
    simp [Item.enumName]
  exact (Item.enumField.inj ((hmem f hf).trans (hmem f' hf').symm)).1

/-- What is reached is copied, whatever it is declared in. -/
theorem containing_mem_copies (h : Described pool order s) {i : Item} (hi : i ∈ order) :
    pool.containing i ∈ pool.copies s i := by
  cases i with
  | message m =>
    have hm : m ∈ s.fdSet.flatMap (·.messageType) :=
      h.messages.symm.subset (mem_messageNames.mpr hi)
    exact List.mem_map.mpr ⟨m, List.mem_filter.mpr ⟨hm, by simp⟩, rfl⟩
  | enumField f type =>
    have htype : type ∈ s.fdSet.flatMap (·.enumType) :=
      h.enums.symm.subset (List.mem_filterMap.mpr ⟨_, hi, rfl⟩)
    exact List.mem_append_left _
      (List.mem_map.mpr ⟨type, List.mem_filter.mpr ⟨htype, by simp⟩, rfl⟩)

theorem copies_message {m : String} (htop : (pool.message m).containing = []) :
    pool.copies s (.message m) =
      List.replicate ((s.fdSet.flatMap (·.messageType)).count m) [] := by
  simp [copies, htop, List.filter_eq]

theorem copies_enumField {f type : String} (htop : (pool.enum type).containing = []) :
    pool.copies s (.enumField f type) =
      List.replicate ((s.fdSet.flatMap (·.enumType)).count type) [] := by
  simp [copies, htop, List.filter_eq]

theorem once_iff (h : Described pool order s) (hnodup : order.Nodup) :
    (∀ i ∈ order, pool.copies s i = [[]]) ↔ (∀ i ∈ order, pool.containing i = []) ∧
      ∀ f f' type, .enumField f type ∈ order → .enumField f' type ∈ order → f = f' := by
  have hsingle : ∀ n, List.replicate n ([] : List String) = [[]] ↔ n = 1 := fun n => by
    rw [← List.replicate_one, List.replicate_left_inj]
  constructor
  · intro honce
    have htop : ∀ i ∈ order, pool.containing i = [] := by
      intro i hi
      have hmem := containing_mem_copies h hi
      rw [honce i hi] at hmem
      exact List.mem_singleton.mp hmem
    refine ⟨htop, fun f f' type hf hf' => ?_⟩
    have hcount := honce _ hf
    rw [copies_enumField (htop _ hf), hsingle, h.enums.count_eq] at hcount
    exact count_enumNames_le hcount hf hf'
  · rintro ⟨htop, hfield⟩ i hi
    cases i with
    | message m =>
      rw [copies_message (htop _ hi), hsingle, h.messages.count_eq]
      exact count_messageNames hnodup hi
    | enumField f type =>
      rw [copies_enumField (htop _ hi), hsingle, h.enums.count_eq, List.count_filterMap,
        ← List.count_eq_one_of_mem hnodup hi]
      refine List.countP_congr fun j hj => ?_
      cases j with
      | message m => simp [Item.enumName]
      | enumField f' type' =>
        simp only [Item.enumName, beq_iff_eq, Option.some.injEq, Item.enumField.injEq]
        constructor
        · rintro rfl
          exact ⟨hfield _ _ _ hj hi, rfl⟩
        · exact And.right

/-- The files of a package are one file. -/
theorem file_unique (h : Described pool order s) {fd fd' : FileDescriptorProto}
    (hfd : fd ∈ s.fdSet) (hfd' : fd' ∈ s.fdSet) (hpackage : fd.package = fd'.package) :
    fd = fd' := by
  have hnodup : s.packages.Nodup := h.files ▸ List.nodup_dedup _
  exact List.inj_on_of_nodup_map hnodup hfd hfd' hpackage

theorem mem_messageType_iff (h : Described pool order s) {n : String} :
    (∃ fd ∈ s.fdSet, n ∈ fd.messageType) ↔ .message n ∈ order := by
  rw [← mem_messageNames, ← h.messages.mem_iff, List.mem_flatMap]

theorem imported_iff (h : Walked pool (calls.map .message) [] order .new s) :
    (∀ fd ∈ s.fdSet, ∀ n ∈ fd.messageType, ∀ m ∈ pool.messages,
        m = n ∨ n ∈ (pool.message m).containing →
          ∀ q ∈ pool.references m, q = fd.package ∨ q ∈ fd.dependency) ↔
      ∀ n, .message n ∈ order → ∀ m ∈ pool.messages, n ∈ (pool.message m).containing →
        ∀ q ∈ pool.references m, q = (pool.message n).package ∨
          ∃ m', .message m' ∈ order ∧ (pool.message m').package = (pool.message n).package ∧
            q ∈ pool.references m' := by
  -- the file of a reached message imports what that message refers to
  have hown : ∀ fd ∈ s.fdSet, ∀ m, .message m ∈ order → (pool.message m).package = fd.package →
      ∀ q ∈ pool.references m, q = fd.package ∨ q ∈ fd.dependency := by
    intro fd hfd m hm hpackage q hq
    obtain heq | ⟨fd', hfd', hpackage', hdep⟩ := h.complete m hm List.not_mem_nil q hq
    · exact .inl (heq.trans hpackage)
    · obtain rfl := file_unique h.described hfd hfd' (hpackage.symm.trans hpackage'.symm)
      exact .inr hdep
  constructor
  · intro himported n hn m hm hnested q hq
    obtain ⟨fd, hfd, hmem⟩ := (mem_messageType_iff h.described).mpr hn
    have hpackage := h.described.placed fd hfd n hmem
    rw [hpackage]
    refine (himported fd hfd n hmem m hm (.inr hnested) q hq).imp_right fun hdep => ?_
    exact (h.described.needed fd hfd q hdep).2
  · intro hnested fd hfd n hn m hm hcopied q hq
    have hmem := (mem_messageType_iff h.described).mp ⟨fd, hfd, hn⟩
    have hpackage := h.described.placed fd hfd n hn
    rcases hcopied with rfl | hcopied
    · exact hown fd hfd m hmem hpackage q hq
    · rcases hnested n hmem m hm hcopied q hq with heq | ⟨m', hm', hpackage', hq'⟩
      · exact .inl (heq.trans hpackage)
      · exact hown fd hfd m' hm' (hpackage'.trans hpackage) q hq'

/-- Every reached type is described once and all that its file needs is imported there, exactly
when no reached type is declared in a message, no enumeration is the type of two reached fields, and
what is declared in a reached message refers to no package that its file does not need. -/
theorem describesAll_iff_describable (pool : DescriptorPool) (calls : List String) (fuel : ℕ)
    (hcalls : ∀ m ∈ calls, m ∈ pool.messages) (hfuel : pool.messages.length < fuel) :
    ∃ s, pool.addMessageDescs fuel calls = some s ∧
      (pool.DescribesAll calls s ↔ pool.Describable calls) := by
  obtain ⟨s, order, hrun, h⟩ := addMessageDescs_spec pool hcalls hfuel
  have hreached : ∀ i, pool.Reached calls i ↔ i ∈ order := fun i => h.walk.mem_iff.symm
  have honce := once_iff h.described (h.walk.nodup List.nodup_nil)
  have himported := imported_iff h
  refine ⟨s, hrun, ?_⟩
  simp only [← hreached] at honce himported
  constructor
  · rintro ⟨hcopies, hfiles⟩
    obtain ⟨htop, hfield⟩ := honce.mp hcopies
    exact ⟨htop, hfield, himported.mp hfiles⟩
  · rintro ⟨htop, hfield, hnested⟩
    exact ⟨honce.mpr ⟨htop, hfield⟩, himported.mpr hnested⟩

/-- A message with a field of an enumeration. -/
def enumPool : DescriptorPool where
  messages := ["P.M"]
  message := fun _ => ⟨"P", [⟨"P.M.a", .enum "P.E"⟩], []⟩
  enum := fun _ => ⟨"P", []⟩
  closed := by simp
  fieldNotMessage := by decide
  fieldUnique := by decide

theorem describesAll_enumPool :
    ∃ s, enumPool.addMessageDescs 2 ["P.M"] = some s ∧
      (enumPool.DescribesAll ["P.M"] s ↔ enumPool.Describable ["P.M"]) :=
  describesAll_iff_describable enumPool ["P.M"] 2 (by decide) (by decide)

/-- A message with two fields of one enumeration, and one of a message that is declared in it. -/
def sharedEnum : DescriptorPool where
  messages := ["P.M", "P.M.N"]
  message := fun
    | "P.M" => ⟨"P", [⟨"P.M.a", .enum "P.E"⟩, ⟨"P.M.b", .enum "P.E"⟩,
        ⟨"P.M.c", .message "P.M.N"⟩], []⟩
    | _ => ⟨"P", [], ["P.M"]⟩
  enum := fun _ => ⟨"P", []⟩
  closed := by simp
  fieldNotMessage := by decide
  fieldUnique := by decide

/-- The enumeration is described for both fields, and the inner message again beside the outer. -/
theorem sharedEnum_described_twice :
    ∃ s, sharedEnum.addMessageDescs 3 ["P.M"] = some s ∧
      sharedEnum.copies s (.enumField "P.M.a" "P.E") = [[], []] ∧
      sharedEnum.copies s (.message "P.M.N") = [[], ["P.M"]] ∧
      ¬ sharedEnum.DescribesAll ["P.M"] s := by
  refine ⟨_, rfl, by decide +kernel, by decide +kernel, fun h => ?_⟩
  have hedge : Edge sharedEnum.succ (.message "P.M") (.enumField "P.M.a" "P.E") := by
    show _ ∈ sharedEnum.succ _
    decide +kernel
  have honce := h.once (.enumField "P.M.a" "P.E") ⟨_, by simp, .single hedge⟩
  exact absurd honce (by decide +kernel)

end DescriptorPool

end Octf.Utils
