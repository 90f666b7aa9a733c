import Octf.Node.NodeGeneric

/-! The paths of nodes lead to them as long as every child is added before it has children of its
own, under one parent, and no addition is refused. -/
namespace Octf.Node
open Foundation
namespace Nodes

/-- `child` is among the children of `parent`. -/
def Child (s : Nodes) (parent child : NodeRef) : Prop := child ∈ (s parent).children

instance (s : Nodes) (parent child : NodeRef) : Decidable (s.Child parent child) :=
  inferInstanceAs (Decidable (child ∈ (s parent).children))

/-- No two children of a node have one id. -/
def DistinctIds (s : Nodes) : Prop :=
  ∀ parent, ((s parent).children.map fun child => (s child).id).Nodup

/-- Every node below the root is found by its path, from the root. -/
structure Addressable (root : NodeRef) (s : Nodes) : Prop where
  found : ∀ n, Relation.TransGen s.Child root n → s.getChildByPath root (s n).path = some n
  called : ∀ n, Relation.ReflTransGen s.Child root n → s.methodNode root (s n).path = some n
  distinct : s.DistinctIds

/-- Every path is that of any parent with the id of the node behind it. -/
structure Consistent (root : NodeRef) (s : Nodes) : Prop where
  root : (s root).path = [(s root).id]
  edge : ∀ parent child, s.Child parent child → (s child).path = (s parent).path ++ [(s child).id]
  distinct : s.DistinctIds

variable {s : Nodes} {root : NodeRef}

theorem consistent_constructed (id : NodeRef → String) (root : NodeRef) :
    Consistent root (constructed id) where
  root := rfl
  edge := by simp [Child, constructed]
  distinct := by simp [DistinctIds, constructed]

/-- Among distinct ids a child is found by its own. -/
theorem getChild_of_child (hdistinct : s.DistinctIds) {parent child : NodeRef}
    (h : s.Child parent child) : s.getChild parent (s child).id = some child := by
  have hnodup := hdistinct parent
  unfold Child at h
  unfold getChild
  generalize (s parent).children = children at h hnodup
  induction children with
  | nil => exact absurd h (List.not_mem_nil)
  | cons c children ih =>
    rw [List.map_cons, List.nodup_cons] at hnodup
    rw [List.find?_cons]
    rcases List.mem_cons.mp h with rfl | hmem
    · simp
    · have hne : (s c).id ≠ (s child).id := by
        intro heq
        exact hnodup.1 (heq ▸ List.mem_map_of_mem hmem)
      simpa [hne] using ih hmem hnodup.2

theorem descend_append {owner : NodeRef} {path : NodePath} {found child : Option NodeRef}
    (h : s.descend owner path child = found) (hstart : path = [] ∨ found ≠ none) (id : String) :
    s.descend owner (path ++ [id]) child = s.getChild (found.getD owner) id := by
  induction path generalizing child with
  | nil =>
    obtain rfl : child = found := h
    rw [List.nil_append, descend]
    cases s.getChild (child.getD owner) id <;> rfl
  | cons i path ih =>
    rw [List.cons_append, descend]
    rw [descend] at h
    have hne : found ≠ none := hstart.resolve_left (List.cons_ne_nil i path)
    cases hget : s.getChild (child.getD owner) i with
    | none =>
      rw [hget] at h
      exact absurd h.symm hne
    | some c =>
      rw [hget] at h
      exact ih h (Or.inr hne)

namespace Consistent

/-- Links from the root down to a node spell its path. -/
theorem descend_path (h : Consistent root s) {n : NodeRef}
    (hreach : Relation.TransGen s.Child root n) :
    ∃ path, (s n).path = (s root).id :: path ∧ s.descend root path none = some n := by
  induction hreach with
  | single hchild =>
    rename_i child
    refine ⟨[(s child).id], ?_, ?_⟩
    · rw [h.edge root child hchild, h.root]
      rfl
    · have happend := @descend_append s root [] none none rfl (Or.inl rfl) (s child).id
      exact happend.trans (getChild_of_child h.distinct hchild)
  | tail _ hchild ih =>
    rename_i parent child _
    obtain ⟨path, hpath, hfound⟩ := ih
    refine ⟨path ++ [(s child).id], ?_, ?_⟩
    · rw [h.edge parent child hchild, hpath]
      rfl
    · rw [descend_append hfound (Or.inr (by simp)) (s child).id]
      exact getChild_of_child h.distinct hchild

theorem addressable (h : Consistent root s) : Addressable root s := by
  have hfound (n : NodeRef) (hreach : Relation.TransGen s.Child root n) :
      s.getChildByPath root (s n).path = some n := by
    obtain ⟨path, hpath, hdescend⟩ := h.descend_path hreach
    rw [hpath, getChildByPath, if_neg (by simp), hdescend]
  refine ⟨hfound, fun n hreach => ?_, h.distinct⟩
  unfold methodNode
  split_ifs with hsame
  · -- the root's path has one item, that of a node below it more
    rcases Relation.reflTransGen_iff_eq_or_transGen.mp hreach with rfl | hbelow
    · rfl
    · obtain ⟨path, hpath, hdescend⟩ := h.descend_path hbelow
      rw [hsame, h.root] at hpath
      obtain rfl : path = [] := (List.cons.inj hpath).2.symm
      exact absurd hdescend (by simp [descend])
  · rcases Relation.reflTransGen_iff_eq_or_transGen.mp hreach with rfl | hbelow
    · exact absurd rfl hsame
    · exact hfound n hbelow

end Consistent

/-- A refused addition finds the path of the child as it would set it. An accepted one does too, or
the child is not the root, has no children and is no child of any node. -/
def Orderly (root : NodeRef) (op : Op) (s : Nodes) : Prop :=
  match op with
  | .addChild parent child =>
    (s child).path = (s parent).path ++ [(s child).id] ∨
      (s.hasChild parent (s child).id = false ∧ child ≠ root ∧ child ≠ parent ∧
        (s child).children = [] ∧ ∀ n, child ∉ (s n).children)
  | .removeChild _ _ => True

/-- An addition that is refused changes no node. -/
def RefusalQuiet (op : Op) (s : Nodes) : Prop :=
  match op with
  | .addChild parent child => (s.addChild parent child).1 = false → (s.addChild parent child).2 = s
  | .removeChild _ _ => True

theorem addChild_of_path {parent child : NodeRef}
    (h : (s child).path = (s parent).path ++ [(s child).id]) :
    s.addChild parent child = if s.hasChild parent (s child).id then (false, s)
      else (true, s.setChildren parent ((s parent).children ++ [child])) := by
  simp only [addChild, ← h, setPath_self]

theorem addChild_refused {parent child : NodeRef} :
    (s.addChild parent child).1 = false ↔ s.hasChild parent (s child).id = true := by
  simp only [addChild, hasChild, getChild_setPath, setPath_id]
  split_ifs with h <;> simp [h]

theorem refusalQuiet_of_orderly {op : Op} (h : Orderly root op s) : RefusalQuiet op s := by
  cases op with
  | removeChild parent id => trivial
  | addChild parent child =>
    intro hrefused
    have hhas := addChild_refused.mp hrefused
    rcases h with hpath | ⟨hnew, -⟩
    · rw [addChild_of_path hpath, if_pos hhas]
    · rw [hhas] at hnew
      exact absurd hnew (by decide)

/-- A new id does not meet those of the other children. -/
theorem nodup_append_new (hdistinct : s.DistinctIds) {parent child : NodeRef}
    (hnew : s.hasChild parent (s child).id = false) :
    (((s parent).children ++ [child]).map fun c => (s c).id).Nodup := by
  rw [List.map_append, List.map_singleton]
  refine List.nodup_append.mpr ⟨hdistinct parent, List.nodup_singleton _, ?_⟩
  rintro id hid id' hid' rfl
  obtain rfl := List.mem_singleton.mp hid'
  obtain ⟨c, hc, hcid⟩ := List.mem_map.mp hid
  rw [hasChild, getChild, Option.isSome_eq_false_iff, Option.isNone_iff_eq_none,
    List.find?_eq_none] at hnew
  exact hnew c hc (by simpa using hcid)

theorem addChild_accepted {parent child : NodeRef}
    (h : s.hasChild parent (s child).id = false) :
    (s.addChild parent child).2 =
      (s.setPath child ((s parent).path ++ [(s child).id])).setChildren parent
        ((s parent).children ++ [child]) := by
  have hget : (s.getChild parent (s child).id).isSome = false := h
  simp [addChild, hasChild, getChild_setPath, hget]

/-- Whatever is added or removed, the ids of children stay distinct. -/
theorem DistinctIds.step (h : s.DistinctIds) (op : Op) : (step op s).DistinctIds := by
  intro p
  cases op with
  | addChild parent child =>
    simp only [Node.step]
    cases hhas : s.hasChild parent (s child).id with
    | true =>
      have hget : (s.getChild parent (s child).id).isSome = true := hhas
      simp only [addChild, hasChild, getChild_setPath, setPath_id, hget, if_true,
        setPath_children]
      exact h p
    | false =>
      rw [addChild_accepted hhas]
      simp only [setChildren_children, setChildren_id, setPath_id, setPath_children]
      split_ifs
      · exact nodup_append_new h hhas
      · exact h p
  | removeChild parent id =>
    simp only [Node.step, removeChild]
    split_ifs
    · simp only [setChildren_children, setChildren_id]
      split_ifs with hpp
      · subst hpp
        exact (List.Sublist.map _ List.eraseP_sublist).nodup (h p)
      · exact h p
    · exact h p

namespace Consistent

theorem addChild (h : Consistent root s) {parent child : NodeRef}
    (hop : Orderly root (.addChild parent child) s) :
    Consistent root (s.addChild parent child).2 := by
  cases hhas : s.hasChild parent (s child).id with
  | true =>
    rwa [refusalQuiet_of_orderly hop (addChild_refused.mpr hhas)]
  | false =>
    have hdistinct := h.distinct.step (.addChild parent child)
    simp only [Node.step] at hdistinct
    rw [addChild_accepted hhas] at hdistinct ⊢
    -- the paths that change are not looked at from above or below
    have hpaths (n : NodeRef) (hn : n = child → (s child).path ≠ (s parent).path ++ [(s child).id] →
        False) : (s.setPath child ((s parent).path ++ [(s child).id]) n).path = (s n).path := by
      rw [setPath_path]
      split_ifs with hnc
      · subst hnc
        exact (not_not.mp (hn rfl)).symm
      · rfl
    refine ⟨?_, ?_, hdistinct⟩
    · rw [setChildren_path, setChildren_id, setPath_id, hpaths, h.root]
      rintro rfl hne
      exact hop.elim hne fun hleaf => hleaf.2.1 rfl
    · intro p c hpc
      simp only [Child, setChildren_children, setPath_children] at hpc
      simp only [setChildren_path, setChildren_id, setPath_id]
      have hp : (s.setPath child ((s parent).path ++ [(s child).id]) p).path = (s p).path := by
        apply hpaths
        rintro rfl hne
        obtain ⟨-, -, hparent, hleaf, -⟩ := hop.resolve_left hne
        rw [if_neg hparent, hleaf] at hpc
        exact absurd hpc List.not_mem_nil
      rw [hp]
      by_cases hnew : p = parent ∧ c = child
      · obtain ⟨rfl, rfl⟩ := hnew
        rw [setPath_path, if_pos rfl]
      · have hold : s.Child p c := by
          split_ifs at hpc with hpp
          · subst hpp
            exact (List.mem_append.mp hpc).resolve_right
              fun hc => hnew ⟨rfl, List.mem_singleton.mp hc⟩
          · exact hpc
        rw [hpaths, h.edge p c hold]
        rintro rfl hne
        exact (hop.resolve_left hne).2.2.2.2 p hold

theorem removeChild (h : Consistent root s) (parent : NodeRef) (id : String) :
    Consistent root (s.removeChild parent id).2 := by
  have hdistinct := h.distinct.step (.removeChild parent id)
  simp only [Node.step] at hdistinct
  unfold Nodes.removeChild at hdistinct ⊢
  split_ifs at hdistinct ⊢ with hhas
  · refine ⟨?_, ?_, hdistinct⟩
    · rw [setChildren_path, setChildren_id]
      exact h.root
    · intro p c hpc
      simp only [Child, setChildren_children] at hpc
      simp only [setChildren_path, setChildren_id]
      apply h.edge p c
      split_ifs at hpc with hpp
      · subst hpp
        exact List.eraseP_subset hpc
      · exact hpc
  · exact h

theorem step (h : Consistent root s) {op : Op} (hop : Orderly root op s) :
    Consistent root (step op s) := by
  cases op with
  | addChild parent child => exact h.addChild hop
  | removeChild parent id => exact h.removeChild parent id

end Consistent

end Nodes
open Nodes

/-- Ids among children are distinct after every run. In every run of additions and removals that
are all orderly, every node below the root is found by its path, and refused additions change no
node. -/
theorem nodes_addressable (id : NodeRef → String) (root : NodeRef) :
    (∀ ops, DistinctIds (run step ops (constructed id))) ∧
    ∀ ops, Meets step (Orderly root) ops (constructed id) →
      Addressable root (run step ops (constructed id)) ∧
        Meets step RefusalQuiet ops (constructed id) := by
  have hstart := consistent_constructed id root
  constructor
  · intro ops
    exact run_invariant (P := DistinctIds) (fun op _ _ h => h.step op)
      (meets_of_forall (C := fun _ => True) (fun _ _ => trivial) _) hstart.distinct
  · intro ops hops
    refine ⟨(run_invariant (P := Consistent root) (fun _ _ hop h => h.step hop) hops
      hstart).addressable, ?_⟩
    exact hops.imp_of_invariant (I := Consistent root) (fun _ _ hop h => h.step hop)
      (fun _ _ hop _ => refusalQuiet_of_orderly hop) hstart

/-- A root, two nodes of one id and others of another. -/
def sampleId : NodeRef → String
  | 0 => "root"
  | 1 => "a"
  | 3 => "a"
  | _ => "b"

/-- A child is added, removed and added again. -/
theorem nodes_addressable_small :
    Addressable 0 (run step [.addChild 0 1, .removeChild 0 "a", .addChild 0 1]
      (constructed sampleId)) := by
  have hops : Meets step (Orderly 0) [.addChild 0 1, .removeChild 0 "a", .addChild 0 1]
      (constructed sampleId) :=
    ⟨Or.inr ⟨by decide, by decide, by decide, rfl, fun n => List.not_mem_nil⟩, trivial,
      Or.inl (by decide), trivial⟩
  exact ((nodes_addressable sampleId 0).2 _ hops).1

/-- The path of a node is stale when its parent is added after it. It is overwritten by an addition
that is refused, here with the path of another node. And it is lost when the second of two parents
is removed. -/
theorem paths_stale :
    ¬ Addressable 0 (run step [.addChild 1 2, .addChild 0 1] (constructed sampleId)) ∧
    (¬ Addressable 0 (run step [.addChild 0 1, .addChild 0 2, .addChild 2 3, .addChild 0 3]
        (constructed sampleId)) ∧
      ¬ Meets step RefusalQuiet [.addChild 0 1, .addChild 0 2, .addChild 2 3, .addChild 0 3]
        (constructed sampleId)) ∧
    ¬ Addressable 0 (run step [.addChild 0 1, .addChild 0 2, .addChild 1 3, .addChild 2 3,
      .removeChild 2 "a"] (constructed sampleId)) := by
  refine ⟨fun h => ?_, ⟨fun h => ?_, fun h => ?_⟩, fun h => ?_⟩
  · exact absurd (h.found 2 (.tail (b := 1) (.single (by decide)) (by decide))) (by decide)
  · exact absurd (h.found 3 (.tail (b := 2) (.single (by decide)) (by decide))) (by decide)
  · obtain ⟨-, -, -, hquiet, -⟩ := h
    exact absurd (congrArg (fun s => (s 3).path) (hquiet (by decide))) (by decide)
  · exact absurd (h.found 3 (.tail (b := 1) (.single (by decide)) (by decide))) (by decide)

end Octf.Node
