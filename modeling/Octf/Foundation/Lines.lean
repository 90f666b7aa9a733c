import Mathlib.Data.List.Basic
import Mathlib.Tactic.Common

/-! Reading a sequence piece by piece up to a delimiter, where a delimiter at the very end closes
the last piece and opens none. -/
namespace Foundation

variable {α : Type*} [DecidableEq α] {d : α}

/-- The pieces that reading up to the delimiter gives, one after another, until nothing is left. -/
def getlines (d : α) : List α → List (List α)
  | [] => []
  | c :: cs =>
    if c = d then [] :: getlines d cs
    else match getlines d cs with
      | [] => [[c]]
      | piece :: pieces => (c :: piece) :: pieces

/-- Nothing stands behind the last delimiter. -/
def endsOpen (d : α) (l : List α) : Bool := l.getLast?.all (· = d)

@[simp] theorem getlines_nil : getlines d [] = [] := rfl

@[simp] theorem getlines_delimiter (l : List α) : getlines d (d :: l) = [] :: getlines d l := by
  simp [getlines]

theorem getlines_append_delimiter {piece : List α} (h : d ∉ piece) (l : List α) :
    getlines d (piece ++ d :: l) = piece :: getlines d l := by
  induction piece with
  | nil => exact getlines_delimiter l
  | cons c piece ih =>
    have hc : c ≠ d := fun hcd => h (hcd ▸ List.mem_cons_self)
    have hih := ih fun hmem => h (List.mem_cons_of_mem _ hmem)
    simp only [List.cons_append, getlines, if_neg hc, hih]

theorem getlines_of_notMem {piece : List α} (h : d ∉ piece) (hne : piece ≠ []) :
    getlines d piece = [piece] := by
  induction piece with
  | nil => exact absurd rfl hne
  | cons c piece ih =>
    have hc : c ≠ d := fun hcd => h (hcd ▸ List.mem_cons_self)
    rw [getlines, if_neg hc]
    cases piece with
    | nil => rfl
    | cons c' piece => rw [ih (fun hmem => h (List.mem_cons_of_mem _ hmem)) (by simp)]

/-- Pieces that are each closed by a delimiter are read back. -/
theorem getlines_closed {pieces : List (List α)} (h : ∀ piece ∈ pieces, d ∉ piece) :
    getlines d (pieces.flatMap fun piece => piece ++ [d]) = pieces := by
  induction pieces with
  | nil => rfl
  | cons piece pieces ih =>
    rw [List.flatMap_cons, List.append_assoc, List.singleton_append,
      getlines_append_delimiter (h piece List.mem_cons_self),
      ih fun p hp => h p (List.mem_cons_of_mem _ hp)]

/-- So are pieces between delimiters, when the last one is not empty. -/
theorem getlines_open {pieces : List (List α)} {last : List α} (h : ∀ piece ∈ pieces, d ∉ piece)
    (hlast : d ∉ last) (hne : last ≠ []) :
    getlines d ((pieces.flatMap fun piece => piece ++ [d]) ++ last) = pieces ++ [last] := by
  induction pieces with
  | nil => exact getlines_of_notMem hlast hne
  | cons piece pieces ih =>
    rw [List.flatMap_cons, List.append_assoc, List.append_assoc, List.singleton_append,
      getlines_append_delimiter (h piece List.mem_cons_self),
      ih fun p hp => h p (List.mem_cons_of_mem _ hp)]
    rfl

theorem getlines_eq_nil {l : List α} : getlines d l = [] ↔ l = [] := by
  cases l with
  | nil => simp
  | cons c cs =>
    simp only [getlines, reduceCtorEq, iff_false]
    split_ifs
    · simp
    · split <;> simp

theorem endsOpen_cons {c : α} {l : List α} (h : l ≠ []) : endsOpen d (c :: l) = endsOpen d l := by
  obtain ⟨c', l, rfl⟩ := List.exists_cons_of_ne_nil h
  simp [endsOpen, List.getLast?_cons_cons]

/-- A last piece is read behind those that are closed. -/
theorem getlines_append_of_notMem {l last : List α} (hl : endsOpen d l = true) (hlast : d ∉ last)
    (hne : last ≠ []) : getlines d (l ++ last) = getlines d l ++ [last] := by
  induction l with
  | nil => exact getlines_of_notMem hlast hne
  | cons c cs ih =>
    by_cases hcs : cs = []
    · subst hcs
      obtain rfl : c = d := by simpa [endsOpen] using hl
      simp [getlines_of_notMem hlast hne]
    · rw [endsOpen_cons hcs] at hl
      simp only [List.cons_append, getlines, ih hl]
      split_ifs
      · rfl
      · cases hpieces : getlines d cs with
        | nil => exact absurd (getlines_eq_nil.mp hpieces) hcs
        | cons piece pieces => rfl

theorem endsOpen_append (l : List α) {last : List α} (hne : last ≠ []) :
    endsOpen d (l ++ last) = endsOpen d last := by
  induction l with
  | nil => rfl
  | cons c l ih => rw [List.cons_append, endsOpen_cons (by simp [hne]), ih]

theorem endsOpen_append_delimiter (piece l : List α) :
    endsOpen d (piece ++ d :: l) = endsOpen d l := by
  by_cases hl : l = []
  · subst hl
    rw [endsOpen_append piece (by simp)]
    simp [endsOpen]
  · rw [endsOpen_append piece (by simp), endsOpen_cons hl]

theorem endsOpen_of_notMem {l : List α} (h : d ∉ l) (hne : l ≠ []) : endsOpen d l = false := by
  rw [endsOpen, List.getLast?_eq_some_getLast hne, Option.all_some]
  exact decide_eq_false fun heq => h (heq ▸ List.getLast_mem hne)

/-- One piece for each delimiter, and one for what stands behind the last. -/
theorem length_getlines (l : List α) :
    (getlines d l).length = l.count d + if endsOpen d l then 0 else 1 := by
  induction l with
  | nil => simp [endsOpen]
  | cons c cs ih =>
    by_cases hcs : cs = []
    · subst hcs
      by_cases hc : c = d <;> simp [getlines, endsOpen, hc]
    · rw [endsOpen_cons hcs, getlines]
      split_ifs with hc hopen hopen
      · rw [if_pos hopen] at ih
        simp [hc, ih]
      · rw [if_neg hopen] at ih
        simp [hc, ih]
      all_goals
        have hne : getlines d cs ≠ [] := mt getlines_eq_nil.mp hcs
        obtain ⟨piece, pieces, hpieces⟩ := List.exists_cons_of_ne_nil hne
        rw [hpieces] at ih ⊢
        simp only [hopen] at ih
        simpa [List.count_cons_of_ne hc] using ih

/-! ### Writing with delimiters between the pieces -/

omit [DecidableEq α] in
theorem intercalate_concat (pieces : List (List α)) (last : List α) :
    [d].intercalate (pieces ++ [last]) = (pieces.flatMap fun piece => piece ++ [d]) ++ last := by
  induction pieces with
  | nil => simp
  | cons piece pieces ih =>
    obtain ⟨next, rest, hnext⟩ := List.exists_cons_of_ne_nil
      (show pieces ++ [last] ≠ [] by simp)
    rw [List.cons_append, hnext, List.intercalate_cons_cons, ← hnext, ih]
    simp

/-- What is written with delimiters between the pieces is read back when the last is not empty. -/
theorem getlines_intercalate {pieces : List (List α)} (h : ∀ piece ∈ pieces, d ∉ piece)
    (hne : pieces ≠ []) (hlast : pieces.getLast hne ≠ []) :
    getlines d ([d].intercalate pieces) = pieces := by
  have hsplit := List.dropLast_append_getLast hne
  rw [← hsplit, intercalate_concat, getlines_open]
  · exact fun piece hp => h piece (List.dropLast_subset _ hp)
  · exact h _ (List.getLast_mem hne)
  · exact hlast

/-- So it is, with any last piece, when a delimiter follows. -/
theorem getlines_intercalate_append {pieces : List (List α)} (h : ∀ piece ∈ pieces, d ∉ piece)
    (hne : pieces ≠ []) : getlines d ([d].intercalate pieces ++ [d]) = pieces := by
  have hclosed := getlines_closed h
  rw [← List.dropLast_append_getLast hne, List.flatMap_append] at hclosed
  rw [← List.dropLast_append_getLast hne, intercalate_concat]
  simpa using hclosed

theorem endsOpen_intercalate {pieces : List (List α)} (h : ∀ piece ∈ pieces, d ∉ piece)
    (hne : pieces ≠ []) (hlast : pieces.getLast hne ≠ []) :
    endsOpen d ([d].intercalate pieces) = false := by
  rw [← List.dropLast_append_getLast hne, intercalate_concat, endsOpen_append _ hlast]
  exact endsOpen_of_notMem (h _ (List.getLast_mem hne)) hlast

omit [DecidableEq α] in
theorem mem_intercalate {pieces : List (List α)} {c : α} (h : c ∈ [d].intercalate pieces) :
    c = d ∨ ∃ piece ∈ pieces, c ∈ piece := by
  rcases List.eq_nil_or_concat' pieces with rfl | ⟨init, last, rfl⟩
  · simp at h
  · rw [intercalate_concat, List.mem_append, List.mem_flatMap] at h
    rcases h with ⟨piece, hp, hc⟩ | hc
    · rcases List.mem_append.mp hc with hc | hc
      · exact .inr ⟨piece, by simp [hp], hc⟩
      · exact .inl (List.mem_singleton.mp hc)
    · exact .inr ⟨last, by simp, hc⟩

end Foundation
