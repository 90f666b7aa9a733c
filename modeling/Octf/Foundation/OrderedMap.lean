import Mathlib.Data.List.Pairwise
import Mathlib.Data.List.Perm.Basic
import Mathlib.Order.Lattice
import Mathlib.Tactic.Common

/-! A map with numbers for keys, as the list of its entries in the order of the keys. -/
namespace Foundation

structure OrderedMap (V : Type*) where
  entries : List (ℕ × V)
  sorted : entries.Pairwise fun a b => a.1 < b.1

namespace OrderedMap

variable {V : Type*}

def empty : OrderedMap V := ⟨[], List.Pairwise.nil⟩

def find (k : ℕ) (m : OrderedMap V) : Option V :=
  (m.entries.find? fun e => e.1 = k).map Prod.snd

/-- The entries with a new one at its place; a key that is there keeps its value. -/
def insertEntry (k : ℕ) (v : V) : List (ℕ × V) → List (ℕ × V)
  | [] => [(k, v)]
  | e :: es =>
    if k < e.1 then (k, v) :: e :: es
    else if k = e.1 then e :: es
    else e :: insertEntry k v es

theorem mem_insertEntry {k : ℕ} {v : V} {e : ℕ × V} {es : List (ℕ × V)}
    (h : e ∈ insertEntry k v es) : e = (k, v) ∨ e ∈ es := by
  induction es with
  | nil => exact Or.inl (List.mem_singleton.mp h)
  | cons x es ih =>
    unfold insertEntry at h
    split_ifs at h
    · exact List.mem_cons.mp h
    · exact Or.inr h
    · rcases List.mem_cons.mp h with rfl | h
      · exact Or.inr List.mem_cons_self
      · exact (ih h).imp_right (List.mem_cons_of_mem x)

theorem sorted_insertEntry {k : ℕ} {v : V} {es : List (ℕ × V)}
    (h : es.Pairwise fun a b => a.1 < b.1) :
    (insertEntry k v es).Pairwise fun a b => a.1 < b.1 := by
  induction es with
  | nil => exact List.pairwise_singleton _ _
  | cons x es ih =>
    obtain ⟨hx, hes⟩ := List.pairwise_cons.mp h
    unfold insertEntry
    split_ifs with hlt heq
    · refine List.pairwise_cons.mpr ⟨fun e he => ?_, h⟩
      rcases List.mem_cons.mp he with rfl | he
      · exact hlt
      · exact hlt.trans (hx e he)
    · exact h
    · refine List.pairwise_cons.mpr ⟨fun e he => ?_, ih hes⟩
      rcases mem_insertEntry he with rfl | he
      · exact lt_of_le_of_ne (not_lt.mp hlt) (Ne.symm heq)
      · exact hx e he

def emplace (k : ℕ) (v : V) (m : OrderedMap V) : OrderedMap V :=
  ⟨insertEntry k v m.entries, sorted_insertEntry m.sorted⟩

/-- The map without its first entry of a kind. -/
def removeFirst (p : ℕ × V → Bool) (m : OrderedMap V) : OrderedMap V :=
  ⟨m.entries.eraseP p, m.sorted.sublist List.eraseP_sublist⟩

def erase (k : ℕ) (m : OrderedMap V) : OrderedMap V := m.removeFirst fun e => e.1 = k

variable {m : OrderedMap V} {k : ℕ} {v : V} {e : ℕ × V} {p : ℕ × V → Bool}

theorem eq_of_key (he : e ∈ m.entries) {e' : ℕ × V} (he' : e' ∈ m.entries) (h : e.1 = e'.1) :
    e = e' := by
  by_contra hne
  have : Std.Symm fun a b : ℕ × V => a.1 ≠ b.1 := ⟨fun _ _ h => h.symm⟩
  have hdistinct : m.entries.Pairwise fun a b => a.1 ≠ b.1 := m.sorted.imp fun hlt => hlt.ne
  exact hdistinct.forall he he' hne h

theorem find_eq_some_iff : m.find k = some v ↔ (k, v) ∈ m.entries := by
  rw [find, Option.map_eq_some_iff]
  constructor
  · rintro ⟨⟨key, value⟩, hfound, rfl⟩
    have hkey : key = k := by simpa using List.find?_some hfound
    exact hkey ▸ List.mem_of_find?_eq_some hfound
  · intro hmem
    cases hfound : m.entries.find? fun e => e.1 = k with
    | none => simpa using List.find?_eq_none.mp hfound _ hmem
    | some e =>
      have hkey : e.1 = k := by simpa using List.find?_some hfound
      have heq := eq_of_key (List.mem_of_find?_eq_some hfound) hmem hkey
      exact ⟨e, rfl, congrArg Prod.snd heq⟩

theorem find_eq_none_iff : m.find k = none ↔ ∀ e ∈ m.entries, e.1 ≠ k := by
  rw [find, Option.map_eq_none_iff, List.find?_eq_none]
  simp

theorem perm_insertEntry {es : List (ℕ × V)} (h : ∀ e ∈ es, e.1 ≠ k) :
    (insertEntry k v es).Perm ((k, v) :: es) := by
  induction es with
  | nil => exact List.Perm.refl _
  | cons x es ih =>
    unfold insertEntry
    split_ifs with hlt heq
    · exact List.Perm.refl _
    · exact absurd heq.symm (h x List.mem_cons_self)
    · have hrest := ih fun e he => h e (List.mem_cons_of_mem x he)
      exact (hrest.cons x).trans (List.Perm.swap (k, v) x es)

theorem perm_emplace (h : m.find k = none) :
    (m.emplace k v).entries.Perm ((k, v) :: m.entries) :=
  perm_insertEntry (find_eq_none_iff.mp h)

theorem perm_removeFirst (h : m.entries.find? p = some e) :
    m.entries.Perm (e :: (m.removeFirst p).entries) := by
  change m.entries.Perm (e :: m.entries.eraseP p)
  generalize m.entries = es at h
  induction es with
  | nil => cases h
  | cons x es ih =>
    cases hx : p x with
    | true =>
      rw [List.find?_cons_of_pos hx, Option.some.injEq] at h
      rw [List.eraseP_cons_of_pos hx, h]
    | false =>
      have hneg : ¬ p x = true := by simp [hx]
      rw [List.find?_cons_of_neg hneg] at h
      rw [List.eraseP_cons_of_neg hneg]
      exact ((ih h).cons x).trans (List.Perm.swap e x _)

theorem perm_erase (h : m.find k = some v) :
    m.entries.Perm ((k, v) :: (m.erase k).entries) := by
  obtain ⟨e, hfound, rfl⟩ := Option.map_eq_some_iff.mp h
  have hkey : e.1 = k := by simpa using List.find?_some hfound
  have hperm := perm_removeFirst hfound
  rwa [← hkey] at hperm ⊢

theorem mem_of_mem_removeFirst (h : e ∈ (m.removeFirst p).entries) : e ∈ m.entries :=
  List.eraseP_sublist.subset h

theorem mem_erase_of_ne (h : e ∈ m.entries) (hne : e.1 ≠ k) : e ∈ (m.erase k).entries :=
  (List.mem_eraseP_of_neg (by simpa using hne)).mpr h

theorem erase_of_find_none (h : m.find k = none) : m.erase k = m := by
  have hnone : m.entries.eraseP (fun e => e.1 = k) = m.entries :=
    List.eraseP_of_forall_not fun e he => by simpa using find_eq_none_iff.mp h e he
  cases m
  simp only [erase, removeFirst] at hnone ⊢
  simp only [hnone]

theorem find_emplace (h : m.find k = none) (k' : ℕ) :
    (m.emplace k v).find k' = if k' = k then some v else m.find k' := by
  refine Option.ext fun w => ?_
  have hmem : (k', w) ∈ (m.emplace k v).entries ↔ (k', w) = (k, v) ∨ (k', w) ∈ m.entries :=
    (perm_emplace h).mem_iff.trans List.mem_cons
  rw [find_eq_some_iff, hmem]
  split_ifs with hk
  · rw [hk, Option.some.injEq, ← find_eq_some_iff, h]
    simp [eq_comm]
  · rw [find_eq_some_iff]
    simp [hk]

theorem find_erase (m : OrderedMap V) (k k' : ℕ) :
    (m.erase k).find k' = if k' = k then none else m.find k' := by
  cases hfound : m.find k with
  | none =>
    rw [erase_of_find_none hfound]
    split_ifs with hk
    · rw [hk, hfound]
    · rfl
  | some v =>
    split_ifs with hk
    · rw [hk, find_eq_none_iff]
      intro e he hkey
      have hdistinct := ((perm_erase hfound).pairwise_iff fun h => Ne.symm h).mp
        (m.sorted.imp fun hlt => ne_of_lt hlt)
      exact (List.pairwise_cons.mp hdistinct).1 e he hkey.symm
    · refine Option.ext fun w => ?_
      rw [find_eq_some_iff, find_eq_some_iff, (perm_erase hfound).mem_iff, List.mem_cons,
        or_iff_right fun heq => hk (Prod.mk.inj heq).1]

/-! ### Changing the value of a key -/

/-- The entries with the value of a key replaced by one made from it. -/
def alterEntry (k : ℕ) (f : Option V → V) : List (ℕ × V) → List (ℕ × V)
  | [] => [(k, f none)]
  | e :: es =>
    if k < e.1 then (k, f none) :: e :: es
    else if k = e.1 then (k, f (some e.2)) :: es
    else e :: alterEntry k f es

variable {f : Option V → V}

theorem key_of_mem_alterEntry {es : List (ℕ × V)} (h : e ∈ alterEntry k f es) :
    e.1 = k ∨ e ∈ es := by
  induction es with
  | nil => exact Or.inl (by rw [List.mem_singleton.mp h])
  | cons x es ih =>
    unfold alterEntry at h
    split_ifs at h
    · rcases List.mem_cons.mp h with rfl | h
      · exact Or.inl rfl
      · exact Or.inr h
    · rcases List.mem_cons.mp h with rfl | h
      · exact Or.inl rfl
      · exact Or.inr (List.mem_cons_of_mem x h)
    · rcases List.mem_cons.mp h with rfl | h
      · exact Or.inr List.mem_cons_self
      · exact (ih h).imp_right (List.mem_cons_of_mem x)

theorem sorted_alterEntry {es : List (ℕ × V)} (h : es.Pairwise fun a b => a.1 < b.1) :
    (alterEntry k f es).Pairwise fun a b => a.1 < b.1 := by
  induction es with
  | nil => exact List.pairwise_singleton _ _
  | cons x es ih =>
    obtain ⟨hx, hes⟩ := List.pairwise_cons.mp h
    unfold alterEntry
    split_ifs with hlt heq
    · refine List.pairwise_cons.mpr ⟨fun e he => ?_, h⟩
      rcases List.mem_cons.mp he with rfl | he
      · exact hlt
      · exact hlt.trans (hx e he)
    · exact List.pairwise_cons.mpr ⟨fun e he => heq ▸ hx e he, hes⟩
    · refine List.pairwise_cons.mpr ⟨fun e he => ?_, ih hes⟩
      rcases key_of_mem_alterEntry he with hkey | he
      · rw [hkey]
        exact lt_of_le_of_ne (not_lt.mp hlt) (Ne.symm heq)
      · exact hx e he

/-- `operator[]` followed by an assignment. -/
def alter (k : ℕ) (f : Option V → V) (m : OrderedMap V) : OrderedMap V :=
  ⟨alterEntry k f m.entries, sorted_alterEntry m.sorted⟩

theorem find_alterEntry {es : List (ℕ × V)} (h : es.Pairwise fun a b => a.1 < b.1) (k' : ℕ) :
    ((alterEntry k f es).find? fun e => e.1 = k').map Prod.snd =
      if k' = k then some (f ((es.find? fun e => e.1 = k).map Prod.snd))
      else (es.find? fun e => e.1 = k').map Prod.snd := by
  induction es with
  | nil => by_cases hk : k' = k <;> simp [alterEntry, hk, eq_comm (a := k)]
  | cons x es ih =>
    obtain ⟨hx, hes⟩ := List.pairwise_cons.mp h
    unfold alterEntry
    by_cases hlt : k < x.1
    · have hnone : (x :: es).find? (fun e => e.1 = k) = none := by
        refine List.find?_eq_none.mpr fun e he => ?_
        have hle : x.1 ≤ e.1 := by
          rcases List.mem_cons.mp he with rfl | he
          · exact le_rfl
          · exact (hx e he).le
        simpa using (hlt.trans_le hle).ne'
      rw [if_pos hlt, hnone]
      by_cases hk : k' = k
      · simp [hk]
      · simp [hk, eq_comm (a := k)]
    · rw [if_neg hlt]
      by_cases heq : k = x.1
      · rw [if_pos heq]
        by_cases hk : k' = k
        · simp [hk, ← heq]
        · simp [hk, ← heq, eq_comm (a := k)]
      · rw [if_neg heq]
        have hne : ¬ x.1 = k := fun hx => heq hx.symm
        by_cases hx' : x.1 = k'
        · have hk : ¬ k' = k := fun hk => hne (hx'.trans hk)
          simp [hx', hk]
        · simpa only [List.find?_cons, hx', hne, decide_false] using ih hes

theorem find_alter (m : OrderedMap V) (k k' : ℕ) (f : Option V → V) :
    (m.alter k f).find k' = if k' = k then some (f (m.find k)) else m.find k' :=
  find_alterEntry m.sorted k'

/-- A key behind all others gets its entry at the end. -/
theorem entries_alter_of_lt (h : ∀ e ∈ m.entries, e.1 < k) :
    (m.alter k f).entries = m.entries ++ [(k, f none)] := by
  suffices hlist : ∀ es : List (ℕ × V), (∀ e ∈ es, e.1 < k) →
      alterEntry k f es = es ++ [(k, f none)] from hlist m.entries h
  intro es hes
  induction es with
  | nil => rfl
  | cons x es ih =>
    have hx := hes x List.mem_cons_self
    rw [alterEntry, if_neg (by omega), if_neg (by omega), List.cons_append,
      ih fun e he => hes e (List.mem_cons_of_mem x he)]

/-- A map is determined by what it finds. -/
theorem ext_find {m m' : OrderedMap V} (h : ∀ k, m.find k = m'.find k) : m = m' := by
  have hmem : ∀ e, e ∈ m.entries ↔ e ∈ m'.entries := fun e => by
    rw [← find_eq_some_iff, ← find_eq_some_iff, h]
  have hnodup : ∀ m : OrderedMap V, m.entries.Nodup := fun m =>
    m.sorted.imp fun hlt heq => hlt.ne (congrArg Prod.fst heq)
  have hperm : m.entries.Perm m'.entries :=
    (List.perm_ext_iff_of_nodup (hnodup m) (hnodup m')).mpr hmem
  have hentries : m.entries = m'.entries :=
    hperm.eq_of_pairwise (fun _ _ _ _ hlt hgt => absurd hlt hgt.asymm) m.sorted m'.sorted
  rcases m with ⟨entries, hsorted⟩
  rcases m' with ⟨entries', hsorted'⟩
  obtain rfl : entries = entries' := hentries
  rfl

end OrderedMap

end Foundation
