import Octf.Utils.DescriptorWalk

/-! The files come in an order in which a receiver can build them, one after another, when every
package is reached before the other packages that it refers to. -/
namespace Octf.Utils
open Foundation

namespace FileDescriptorSetCreator

/-- The files that a file depends on come before it. -/
def InOrder (s : FileDescriptorSetCreator) : Prop :=
  ∀ front fd back, s.fdSet = front ++ fd :: back →
    ∀ q ∈ fd.dependency, ∃ file ∈ front, file.name = q

end FileDescriptorSetCreator

namespace DescriptorPool

/-- Every package of the order is reached before each other one that a message of it refers to. -/
def ReferrersFirst (pool : DescriptorPool) (order : List Item) : Prop :=
  ∀ m, Item.message m ∈ order → ∀ q ∈ pool.references m, q ≠ (pool.message m).package →
    (order.map pool.package).idxOf (pool.message m).package < (order.map pool.package).idxOf q

variable {pool : DescriptorPool} {order : List Item} {s : FileDescriptorSetCreator}

/-- A type that a reached message refers to is reached. -/
theorem references_mem {calls : List String}
    (h : Walked pool (calls.map .message) [] order .new s) {m q : String}
    (hm : .message m ∈ order) (hq : q ∈ pool.references m) : q ∈ order.map pool.package := by
  obtain ⟨i, hi, rfl⟩ := List.mem_map.mp hq
  exact List.mem_map_of_mem (h.walk.succ_mem hm List.not_mem_nil hi)

theorem inOrder_iff {calls : List String}
    (h : Walked pool (calls.map .message) [] order .new s) :
    s.InOrder ↔ pool.ReferrersFirst order := by
  -- a package has its file further in front the later it is reached
  have hfront : ∀ front fd back, s.fdSet = front ++ fd :: back → ∀ q ∈ order.map pool.package,
      q ≠ fd.package → ((∃ file ∈ front, file.name = q) ↔
        (order.map pool.package).idxOf fd.package < (order.map pool.package).idxOf q) := by
    intro front fd back hsplit q hq hne
    have hpackages := h.described.files
    rw [FileDescriptorSetCreator.packages, hsplit, List.map_append, List.map_cons] at hpackages
    rw [← mem_front_iff hpackages.symm hq hne, List.mem_map]
    refine exists_congr fun file => and_congr_right fun hfile => ?_
    rw [h.described.named file (by rw [hsplit]; exact List.mem_append_left _ hfile)]
  constructor
  · intro horder m hm q hq hne
    obtain heq | ⟨fd, hfd, hpackage, hdep⟩ := h.complete m hm List.not_mem_nil q hq
    · exact absurd heq hne
    · obtain ⟨front, back, hsplit⟩ := List.append_of_mem hfd
      rw [← hpackage] at hne ⊢
      exact (hfront front fd back hsplit q (references_mem h hm hq) hne).mp
        (horder front fd back hsplit q hdep)
  · intro hfirst front fd back hsplit q hdep
    have hfd : fd ∈ s.fdSet := by simp [hsplit]
    obtain ⟨hne, m, hm, hpackage, hq⟩ := h.described.needed fd hfd q hdep
    refine (hfront front fd back hsplit q (references_mem h hm hq) hne).mpr ?_
    rw [← hpackage] at hne ⊢
    exact hfirst m hm q hq hne

/-- The files come in order exactly when, in the depth-first order in which the calls reach the
types, every package comes before each other one it refers to. -/
theorem inOrder_iff_referrersFirst (pool : DescriptorPool) (calls : List String) (fuel : ℕ)
    (hcalls : ∀ m ∈ calls, m ∈ pool.messages) (hfuel : pool.messages.length < fuel) :
    ∃ s order, pool.addMessageDescs fuel calls = some s ∧
      DepthFirst pool.succ (calls.map .message) [] order ∧
      (s.InOrder ↔ pool.ReferrersFirst order) := by
  obtain ⟨s, order, hrun, hwalked⟩ := addMessageDescs_spec pool hcalls hfuel
  exact ⟨s, order, hrun, hwalked.walk, inOrder_iff hwalked⟩

/-- A message of `R` has a field of a type of `Q`, and one of a type of `P` that refers to `Q`. -/
def lateReference : DescriptorPool where
  messages := ["R.M", "Q.A", "P.B"]
  message := fun
    | "R.M" => ⟨"R", [⟨"R.M.a", .message "Q.A"⟩, ⟨"R.M.b", .message "P.B"⟩], []⟩
    | "P.B" => ⟨"P", [⟨"P.B.a", .message "Q.A"⟩], []⟩
    | _ => ⟨"Q", [], []⟩
  enum := fun _ => ⟨"", []⟩
  closed := by simp
  fieldNotMessage := by decide
  fieldUnique := by decide

theorem inOrder_single :
    ∃ s order, lateReference.addMessageDescs 4 ["P.B"] = some s ∧
      DepthFirst lateReference.succ [.message "P.B"] [] order ∧
      (s.InOrder ↔ lateReference.ReferrersFirst order) :=
  inOrder_iff_referrersFirst lateReference ["P.B"] 4 (by decide) (by decide)

/-- The packages refer to each other without a cycle. -/
def AcyclicPackages (pool : DescriptorPool) : Prop :=
  ∃ rank : String → ℕ, ∀ m ∈ pool.messages, ∀ q ∈ pool.references m,
    q ≠ (pool.message m).package → rank q < rank (pool.message m).package

/-- The file of `P` comes first although it depends on the one of `Q`, which was there before. -/
theorem lateReference_not_inOrder :
    lateReference.AcyclicPackages ∧ ∃ s, lateReference.addMessageDescs 4 ["R.M"] = some s ∧
      s.fdSet.map (fun fd => (fd.name, fd.dependency)) =
        [("P", ["Q"]), ("Q", []), ("R", ["Q", "P"])] ∧ ¬ s.InOrder := by
  refine ⟨⟨fun p => if p = "R" then 2 else if p = "P" then 1 else 0, by decide +kernel⟩, _, rfl,
    by decide +kernel, ?_⟩
  intro horder
  obtain ⟨file, hfile, -⟩ := horder [] _ _ rfl "Q" (by decide +kernel)
  exact absurd hfile List.not_mem_nil

end DescriptorPool

end Octf.Utils
