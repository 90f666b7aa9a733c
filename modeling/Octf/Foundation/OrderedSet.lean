import Mathlib.Data.List.Basic
import Mathlib.Data.List.Nodup
import Mathlib.Order.Lattice

/-! Ordered containers of unique elements, with a comparator that need not be total: a
sorted list searched from the front, and cursors into it that stay at their element while
others come and go. -/
namespace Foundation

variable {α : Type*}

/-- A place in a container: what lies before it, and what lies from it on. The place behind
the last element has nothing after it. -/
structure Cursor (α : Type*) where
  before : List α
  after : List α

namespace OrderedSet

variable (lt : α → α → Bool)

/-- The first element that is not less than `x`. -/
def lowerBound (x : α) (xs : List α) : Cursor α :=
  ⟨xs.takeWhile fun y => lt y x, xs.dropWhile fun y => lt y x⟩

/-- The first element equivalent to `x`, or the end. -/
def find (x : α) (xs : List α) : Cursor α :=
  match (lowerBound lt x xs).after with
  | [] => ⟨xs, []⟩
  | y :: _ => if lt x y then ⟨xs, []⟩ else lowerBound lt x xs

/-- Whether an insertion of `x` is refused, because an equivalent element is there. -/
def refuses (x : α) (xs : List α) : Bool :=
  match (lowerBound lt x xs).after with
  | [] => false
  | y :: _ => !lt x y

/-- Insert `x` at its place unless an equivalent element is there. -/
def insert (x : α) (xs : List α) : List α :=
  if refuses lt x xs then xs
  else (lowerBound lt x xs).before ++ x :: (lowerBound lt x xs).after

/-- The same with a cursor into the container, which stays at its element. -/
def insertAround (x : α) (c : Cursor α) : Cursor α :=
  let xs := c.before ++ c.after
  let n := (lowerBound lt x xs).before.length
  if refuses lt x xs then c
  else if n ≤ c.before.length then ⟨c.before.take n ++ x :: c.before.drop n, c.after⟩
  else ⟨c.before, c.after.take (n - c.before.length) ++ x :: c.after.drop (n - c.before.length)⟩

theorem lowerBound_append (x : α) (xs : List α) :
    (lowerBound lt x xs).before ++ (lowerBound lt x xs).after = xs :=
  List.takeWhile_append_dropWhile

theorem length_insert_le (x : α) (xs : List α) : (insert lt x xs).length ≤ xs.length + 1 := by
  have hsplit := congrArg List.length (lowerBound_append lt x xs)
  unfold insert
  split_ifs
  · omega
  · simp only [List.length_append, List.length_cons] at hsplit ⊢
    omega

variable {lt}

/-- A list in two parts, the first less than `x` and the second not. -/
theorem lowerBound_eq {x : α} {xs ys : List α} (hxs : ∀ y ∈ xs, lt y x = true)
    (hys : ∀ y ∈ ys.head?, lt y x = false) : lowerBound lt x (xs ++ ys) = ⟨xs, ys⟩ := by
  have hdrop : ys.dropWhile (fun y => lt y x) = ys := by
    cases ys with
    | nil => rfl
    | cons y ys =>
      have hy := hys y rfl
      simp [hy]
  have htake : ys.takeWhile (fun y => lt y x) = [] := by
    cases ys with
    | nil => rfl
    | cons y ys =>
      have hy := hys y rfl
      simp [hy]
  unfold lowerBound
  rw [List.takeWhile_append_of_pos hxs, List.dropWhile_append_of_pos hxs, hdrop, htake,
    List.append_nil]

/-- Nothing between the smaller and the larger elements keeps `x` out. -/
theorem refuses_eq_false {x : α} {xs ys : List α} (hxs : ∀ y ∈ xs, lt y x = true)
    (hys : ∀ y ∈ ys.head?, lt y x = false ∧ lt x y = true) : refuses lt x (xs ++ ys) = false := by
  unfold refuses
  rw [lowerBound_eq hxs fun y hy => (hys y hy).1]
  cases ys with
  | nil => rfl
  | cons y ys =>
    have hy := (hys y rfl).2
    simp [hy]

/-- Between the smaller and the larger elements an insertion succeeds. -/
theorem insert_eq {x : α} {xs ys : List α} (hxs : ∀ y ∈ xs, lt y x = true)
    (hys : ∀ y ∈ ys.head?, lt y x = false ∧ lt x y = true) :
    insert lt x (xs ++ ys) = xs ++ x :: ys := by
  have hbound := lowerBound_eq hxs fun y hy => (hys y hy).1
  have hrefuses := refuses_eq_false hxs hys
  simp [insert, hrefuses, hbound]

/-- Inserting just before the cursor. -/
theorem insertAround_eq {x : α} {xs ys : List α} (hxs : ∀ y ∈ xs, lt y x = true)
    (hys : ∀ y ∈ ys.head?, lt y x = false ∧ lt x y = true) :
    insertAround lt x ⟨xs, ys⟩ = ⟨xs ++ [x], ys⟩ := by
  have hbound := lowerBound_eq hxs fun y hy => (hys y hy).1
  have hrefuses := refuses_eq_false hxs hys
  simp [insertAround, hrefuses, hbound]

/-- An equivalent element keeps `x` out. -/
theorem insertAround_refused {x z : α} {xs ys zs : List α} (hxs : ∀ y ∈ xs, lt y x = true)
    (hz : lt z x = false) (hz' : lt x z = false) :
    insertAround lt x ⟨xs ++ z :: ys, zs⟩ = ⟨xs ++ z :: ys, zs⟩ := by
  have hbound : lowerBound lt x (xs ++ z :: (ys ++ zs)) = ⟨xs, z :: (ys ++ zs)⟩ :=
    lowerBound_eq hxs fun y hy => by
      obtain rfl : z = y := by simpa using hy
      exact hz
  have hrefuses : refuses lt x (xs ++ z :: ys ++ zs) = true := by
    unfold refuses
    rw [List.append_assoc, List.cons_append, hbound]
    simp [hz']
  simp only [insertAround, hrefuses, if_true]

/-- A search that meets an equivalent element behind smaller ones. -/
theorem find_eq {x y : α} {xs ys : List α} (hxs : ∀ z ∈ xs, lt z x = true)
    (hy : lt y x = false) (hy' : lt x y = false) :
    find lt x (xs ++ y :: ys) = ⟨xs, y :: ys⟩ := by
  have hbound : lowerBound lt x (xs ++ y :: ys) = ⟨xs, y :: ys⟩ :=
    lowerBound_eq hxs fun z hz => by
      obtain rfl : y = z := by simpa using hz
      exact hy
  unfold find
  rw [hbound]
  simp [hy']

/-- A search that meets none. -/
theorem find_end {x : α} {xs ys : List α} (hxs : ∀ z ∈ xs, lt z x = true)
    (hys : ∀ y ∈ ys.head?, lt y x = false ∧ lt x y = true) :
    find lt x (xs ++ ys) = ⟨xs ++ ys, []⟩ := by
  have hbound := lowerBound_eq hxs fun y hy => (hys y hy).1
  unfold find
  rw [hbound]
  cases ys with
  | nil => rfl
  | cons y ys =>
    have hy := (hys y rfl).2
    simp [hy]

section Key

variable {β : Type*} [LinearOrder β]

/-- Elements compared by a key. -/
def byKey (key : α → β) (x y : α) : Bool := decide (key x < key y)

variable (key : α → β) {x : α} {xs : List α}

/-- The elements before and behind the place of `x`. -/
theorem split_byKey (x : α) (h : xs.Pairwise fun y z => key y < key z) :
    ∃ ys zs, xs = ys ++ zs ∧ (∀ y ∈ ys, key y < key x) ∧ ∀ z ∈ zs, key x ≤ key z := by
  induction xs with
  | nil => exact ⟨[], [], rfl, by simp, by simp⟩
  | cons y xs ih =>
    obtain ⟨hy, htail⟩ := List.pairwise_cons.mp h
    rcases lt_or_ge (key y) (key x) with hlt | hge
    · obtain ⟨ys, zs, rfl, hys, hzs⟩ := ih htail
      refine ⟨y :: ys, zs, rfl, ?_, hzs⟩
      intro z hz
      rcases List.mem_cons.mp hz with rfl | hz
      · exact hlt
      · exact hys z hz
    · refine ⟨[], y :: xs, rfl, by simp, ?_⟩
      intro z hz
      rcases List.mem_cons.mp hz with rfl | hz
      · exact hge
      · exact hge.trans (hy z hz).le

/-- A new key is added at its place. -/
theorem insert_byKey (h : xs.Pairwise fun y z => key y < key z) (hx : ∀ y ∈ xs, key y ≠ key x) :
    (insert (byKey key) x xs).Perm (x :: xs) ∧
      (insert (byKey key) x xs).Pairwise fun y z => key y < key z := by
  obtain ⟨ys, zs, rfl, hys, hzs⟩ := split_byKey key x h
  have hzs' : ∀ z ∈ zs, key x < key z := fun z hz =>
    lt_of_le_of_ne (hzs z hz) (hx z (List.mem_append_right ys hz)).symm
  have hinsert : insert (byKey key) x (ys ++ zs) = ys ++ x :: zs := by
    apply insert_eq
    · intro y hy
      exact decide_eq_true (hys y hy)
    · intro z hz
      have hz := hzs' z (List.mem_of_mem_head? hz)
      exact ⟨decide_eq_false (not_lt.mpr hz.le), decide_eq_true hz⟩
  rw [hinsert]
  obtain ⟨h1, h2, h3⟩ := List.pairwise_append.mp h
  refine ⟨List.perm_middle, List.pairwise_append.mpr ⟨h1, List.pairwise_cons.mpr ⟨hzs', h2⟩, ?_⟩⟩
  intro y hy z hz
  rcases List.mem_cons.mp hz with rfl | hz
  · exact hys y hy
  · exact h3 y hy z hz

/-- A known key changes nothing. -/
theorem insert_byKey_of_mem (h : xs.Pairwise fun y z => key y < key z)
    (hx : ∃ y ∈ xs, key y = key x) : insert (byKey key) x xs = xs := by
  obtain ⟨ys, zs, rfl, hys, hzs⟩ := split_byKey key x h
  obtain ⟨y, hy, heq⟩ := hx
  cases zs with
  | nil =>
    rw [List.append_nil] at hy
    exact absurd heq (hys y hy).ne
  | cons z zs =>
    have hz : key z ≤ key x := by
      rcases List.mem_append.mp hy with hy | hy
      · exact absurd heq (hys y hy).ne
      · rcases List.mem_cons.mp hy with rfl | hy
        · exact heq.le
        · have hlt := (List.pairwise_cons.mp (List.pairwise_append.mp h).2.1).1 y hy
          exact (hlt.trans_le heq.le).le
    have hbound : lowerBound (byKey key) x (ys ++ z :: zs) = ⟨ys, z :: zs⟩ := by
      apply lowerBound_eq
      · intro y hy
        exact decide_eq_true (hys y hy)
      · intro w hw
        exact decide_eq_false (not_lt.mpr (hzs w (List.mem_of_mem_head? hw)))
    have hrefuses : refuses (byKey key) x (ys ++ z :: zs) = true := by
      unfold refuses
      rw [hbound]
      simp [byKey, hz]
    simp [insert, hrefuses]

/-- Among distinct keys nothing is refused; otherwise something is. -/
theorem foldl_insert_byKey (h : xs.Pairwise fun y z => key y < key z) (new : List α) :
    (((xs ++ new).map key).Nodup →
      (new.foldl (fun xs x => insert (byKey key) x xs) xs).Perm (xs ++ new)) ∧
    (¬ ((xs ++ new).map key).Nodup →
      (new.foldl (fun xs x => insert (byKey key) x xs) xs).length < (xs ++ new).length) ∧
    (new.foldl (fun xs x => insert (byKey key) x xs) xs).Pairwise fun y z => key y < key z := by
  induction new generalizing xs with
  | nil =>
    have hnodup : (xs.map key).Nodup := List.pairwise_map.mpr (h.imp fun hlt => hlt.ne)
    rw [List.append_nil]
    exact ⟨fun _ => List.Perm.refl xs, fun hdup => absurd hnodup hdup, h⟩
  | cons x new ih =>
    rw [List.foldl_cons]
    by_cases hx : ∃ y ∈ xs, key y = key x
    · rw [insert_byKey_of_mem key h hx]
      obtain ⟨hperm, hlen, hsorted⟩ := ih h
      refine ⟨?_, fun _ => ?_, hsorted⟩
      · intro hnodup
        obtain ⟨y, hy, heq⟩ := hx
        rw [List.map_append, List.nodup_append] at hnodup
        exact absurd heq (hnodup.2.2 _ (List.mem_map_of_mem hy) _ (by simp))
      · have hle : (new.foldl (fun xs x => insert (byKey key) x xs) xs).length ≤
            (xs ++ new).length := by
          by_cases hnodup : ((xs ++ new).map key).Nodup
          · exact Nat.le_of_eq (hperm hnodup).length_eq
          · exact Nat.le_of_lt (hlen hnodup)
        simp only [List.length_append, List.length_cons] at hle ⊢
        omega
    · obtain ⟨hinsert, hsorted⟩ := insert_byKey key h fun y hy heq => hx ⟨y, hy, heq⟩
      obtain ⟨hperm, hlen, hsorted'⟩ := ih hsorted
      have hall : (insert (byKey key) x xs ++ new).Perm (xs ++ x :: new) :=
        (hinsert.append_right new).trans List.perm_middle.symm
      refine ⟨fun hnodup => ?_, fun hdup => ?_, hsorted'⟩
      · exact (hperm ((hall.map key).nodup_iff.mpr hnodup)).trans hall
      · rw [← hall.length_eq]
        exact hlen fun hnodup => hdup ((hall.map key).nodup_iff.mp hnodup)

end Key

end OrderedSet

end Foundation
