import Mathlib.Data.List.Induction
import Mathlib.Data.List.Nodup
import Mathlib.Tactic.Common

/-! Doubly linked lists in a memory of links: the list of their nodes from head to tail, and
what taking a node out and appending one do to it. -/
namespace Foundation

variable {α : Type*}

structure Links (α : Type*) where
  prev : Option α
  next : Option α
  deriving DecidableEq

/-- The nodes are linked in this order. -/
structure Chained (links : α → Links α) (nodes : List α) : Prop where
  nodup : nodes.Nodup
  linked : ∀ l x r, nodes = l ++ x :: r → links x = ⟨l.getLast?, r.head?⟩

/-- What is visited from a node on. -/
inductive Path (follow : α → Option α) : Option α → List α → Prop where
  | nil : Path follow none []
  | cons (x : α) (nodes : List α) (tail : Path follow (follow x) nodes) :
      Path follow (some x) (x :: nodes)

namespace Chained

variable {links links' : α → Links α} {l r nodes : List α} {x : α}

theorem nil : Chained links [] where
  nodup := List.nodup_nil
  linked l x r h := by simp at h

/-- Only the links of the nodes count. -/
theorem congr (h : Chained links nodes) (hsame : ∀ y ∈ nodes, links' y = links y) :
    Chained links' nodes where
  nodup := h.nodup
  linked := by
    rintro l x r rfl
    rw [hsame x (by simp), h.linked l x r rfl]

/-- The links forward visit the nodes from head to tail. -/
theorem forward (h : Chained links nodes) : Path (fun x => (links x).next) nodes.head? nodes := by
  have hsuffix : ∀ l r, nodes = l ++ r → Path (fun x => (links x).next) r.head? r := by
    intro l r
    induction r generalizing l with
    | nil => exact fun _ => .nil
    | cons x r ih =>
      intro hsplit
      apply Path.cons
      rw [h.linked l x r hsplit]
      exact ih (l ++ [x]) (by simp [hsplit])
  exact hsuffix [] nodes rfl

/-- The links backward visit the nodes from tail to head. -/
theorem backward (h : Chained links nodes) :
    Path (fun x => (links x).prev) nodes.getLast? nodes.reverse := by
  have hprefix : ∀ l r, nodes = l ++ r →
      Path (fun x => (links x).prev) l.getLast? l.reverse := by
    intro l
    induction l using List.reverseRecOn with
    | nil => exact fun _ _ => .nil
    | append_singleton l x ih =>
      intro r hsplit
      have hsplit' : nodes = l ++ x :: r := by simp [hsplit]
      rw [List.getLast?_concat, List.reverse_concat]
      apply Path.cons
      rw [h.linked l x r hsplit']
      exact ih (x :: r) hsplit'
  exact hprefix nodes [] (List.append_nil nodes).symm

/-- Taking a node out: its neighbours are linked with each other. -/
theorem unlink (h : Chained links (l ++ x :: r))
    (hlast : ∀ y, l.getLast? = some y → links' y = ⟨(links y).prev, r.head?⟩)
    (hhead : ∀ y, r.head? = some y → links' y = ⟨l.getLast?, (links y).next⟩)
    (hrest : ∀ y ∈ l ++ r, l.getLast? ≠ some y → r.head? ≠ some y → links' y = links y) :
    Chained links' (l ++ r) where
  nodup := h.nodup.sublist ((List.sublist_cons_self x r).append_left l)
  linked := by
    have hapart : ∀ y ∈ l, y ∉ r := fun y hl hr =>
      (List.nodup_append.mp h.nodup).2.2 y hl y (List.mem_cons_of_mem x hr) rfl
    intro l' y r' hsplit
    rcases List.append_eq_append_iff.mp hsplit with ⟨m, rfl, rfl⟩ | ⟨m, rfl, hm⟩
    · -- the node stands behind the one that is taken out
      have hy := h.linked (l ++ x :: m) y r' (by simp)
      cases m with
      | nil => simpa [hy] using hhead y rfl
      | cons z m =>
        have hnodup := (List.nodup_append.mp h.nodup).2.1
        have hzy : z ≠ y := by
          rintro rfl
          simp at hnodup
        rw [hrest y (by simp) (fun hl => hapart y (List.mem_of_getLast? hl) (by simp))
          (by simpa using hzy), hy]
        simp [List.getLast?_append]
    · cases m with
      | nil =>
        obtain rfl : y :: r' = r := hm
        simpa [h.linked (l' ++ [] ++ [x]) y r' (by simp)] using hhead y rfl
      | cons z m =>
        -- the node stands before the one that is taken out
        obtain ⟨rfl, rfl⟩ := List.cons.inj hm
        have hy := h.linked l' y (m ++ x :: r) (by simp)
        cases hlast' : m.getLast? with
        | none =>
          obtain rfl := List.getLast?_eq_none_iff.mp hlast'
          simpa [hy] using hlast y (by simp)
        | some z =>
          have hne : m ≠ [] := by
            rintro rfl
            cases hlast'
          have hzy : z ≠ y := by
            rintro rfl
            have hnodup := (List.nodup_append.mp h.nodup).1
            simp [List.nodup_append, List.mem_of_getLast? hlast'] at hnodup
          rw [hrest y (by simp) (by simp [List.getLast?_append, List.getLast?_cons, hlast', hzy])
            (fun hr => hapart y (by simp) (List.mem_of_head? hr)), hy,
            List.head?_append_of_ne_nil _ hne]
          exact congrArg (Links.mk _) (List.head?_append_of_ne_nil m hne).symm

/-- Appending a node: the last one is linked with it. -/
theorem append (h : Chained links nodes) (hx : x ∉ nodes)
    (hlast : ∀ y, nodes.getLast? = some y → links' y = ⟨(links y).prev, some x⟩)
    (hnew : links' x = ⟨nodes.getLast?, none⟩)
    (hrest : ∀ y ∈ nodes, nodes.getLast? ≠ some y → links' y = links y) :
    Chained links' (nodes ++ [x]) where
  nodup := by
    rw [List.nodup_append]
    refine ⟨h.nodup, List.nodup_singleton x, ?_⟩
    rintro y hy z hz rfl
    exact hx (List.mem_singleton.mp hz ▸ hy)
  linked := by
    intro l y r hsplit
    cases r using List.reverseRecOn with
    | nil =>
      obtain ⟨rfl, heq⟩ := List.append_inj' hsplit rfl
      obtain rfl := (List.cons.inj heq).1
      exact hnew
    | append_singleton r z =>
      have hsplit' : nodes ++ [x] = (l ++ y :: r) ++ [z] := by simp [hsplit]
      obtain ⟨rfl, heq⟩ := List.append_inj' hsplit' rfl
      obtain rfl := (List.cons.inj heq).1
      have hy := h.linked l y r rfl
      cases r with
      | nil => simpa [hy] using hlast y (by simp)
      | cons z r =>
        have hlt : (l ++ y :: z :: r).getLast? ≠ some y := by
          intro hlast'
          have hnodup := (List.nodup_append.mp h.nodup).2.1
          have hmem : y ∈ z :: r := by
            apply List.mem_of_getLast?
            simpa [List.getLast?_append, List.getLast?_cons_cons] using hlast'
          exact (List.nodup_cons.mp hnodup).1 hmem
        rw [hrest y (by simp) hlt, hy]
        rfl

end Chained

end Foundation
