import Mathlib.Data.Finset.Sort
import Octf.Utils.TableHeader

/-! The rows of a table: how they are filled, cleared and printed. -/
namespace Octf.Utils

theorem decimal_injective : Function.Injective decimal := by
  intro m n h
  have hrepr : m.repr = n.repr := String.toByteArray_inj.mp (ByteArray.ext (Array.toList_inj.mp h))
  rw [← @Nat.ofDigitChars_ten_toDigits m, ← @Nat.ofDigitChars_ten_toDigits n, ← Nat.toList_repr,
    ← Nat.toList_repr, hrepr]

namespace Table

/-- `Row::setupHeader`: every name of a column in its cell. -/
def setupHeader (row : ℕ) (t : Table) : Table := rewriteNames row t.columnsAssociation t

def eraseCell (row column : ℕ) (t : Table) : Table :=
  { t with map := fun r c => if r = row ∧ c = column then none else t.map r c }

/-- `Row::clear`. The row goes with its last cell. -/
def clear (row : ℕ) (t : Table) : Table :=
  let columns := t.columns.sort (· ≤ ·)
  let t := columns.foldl (fun t column => t.eraseCell row column) t
  if columns = [] then t else { t with rows := t.rows.erase row }

/-- The cells of a row, empty ones where nothing was set. -/
def cells (row : ℕ) (t : Table) : List Bytes :=
  (t.columns.sort (· ≤ ·)).map fun column => (t.map row column).getD []

/-- The rows of a table in the order of their indices. -/
def lines (t : Table) : List (List Bytes) := (t.rows.sort (· ≤ ·)).map t.cells

/-- `operator<<`: commas between cells, line ends between rows. -/
def text (t : Table) : Bytes := [newline].intercalate (t.lines.map [comma].intercalate)

/-! ### Cells by the names of their columns -/

def cell (row : ℕ) (name : Bytes) (t : Table) : Option Bytes :=
  t.map row (t.columnsAssociation.idxOf name)

/-- The columns of a table are those of the names. -/
structure Named (names : List Bytes) (t : Table) : Prop where
  columnsAssociation : t.columnsAssociation = names
  columns : t.columns = Finset.range names.length

/-- Cells of one row, one after another. -/
def setAll (row : ℕ) (ws : List (Bytes × Bytes)) (t : Table) : Table :=
  ws.foldl (fun t w => t.setNamed row w.1 w.2) t

/-- Cells of several rows. -/
def setRows (rows : List (ℕ × List (Bytes × Bytes))) (t : Table) : Table :=
  rows.foldl (fun t w => (t.getRow w.1).setAll w.1 w.2) t

variable {names : List Bytes} {t : Table} {row r : ℕ} {n v : Bytes} {ws : List (Bytes × Bytes)}
  {rows : List (ℕ × List (Bytes × Bytes))}

namespace Named

theorem getRow (h : t.Named names) (row : ℕ) : (t.getRow row).Named names :=
  ⟨h.columnsAssociation, h.columns⟩

theorem setNamed_old (h : t.Named names) (hn : n ∈ names) (row : ℕ) (v : Bytes) :
    (t.setNamed row n v).Named names where
  columnsAssociation := by rw [columnsAssociation_setNamed, h.columnsAssociation, if_pos hn]
  columns := by
    rw [columns_setNamed, h.columnsAssociation, h.columns]
    exact Finset.insert_eq_of_mem (Finset.mem_range.mpr (List.idxOf_lt_length_iff.mpr hn))

theorem setNamed_new (h : t.Named names) (hn : n ∉ names) (row : ℕ) (v : Bytes) :
    (t.setNamed row n v).Named (names ++ [n]) where
  columnsAssociation := by rw [columnsAssociation_setNamed, h.columnsAssociation, if_neg hn]
  columns := by
    rw [columns_setNamed, h.columnsAssociation, h.columns, List.idxOf_eq_length_iff.mpr hn,
      List.length_append, List.length_singleton, Finset.range_add_one]

theorem setAll_old (h : t.Named names) (hws : ∀ w ∈ ws, w.1 ∈ names) (row : ℕ) :
    (t.setAll row ws).Named names := by
  induction ws generalizing t with
  | nil => exact h
  | cons w ws ih =>
    obtain ⟨hw, hws⟩ := List.forall_mem_cons.mp hws
    exact ih (h.setNamed_old hw row w.2) hws

theorem setAll_new (h : t.Named names) (hws : (names ++ ws.map Prod.fst).Nodup) (row : ℕ) :
    (t.setAll row ws).Named (names ++ ws.map Prod.fst) := by
  induction ws generalizing t names with
  | nil =>
    rw [List.map_nil, List.append_nil]
    exact h
  | cons w ws ih =>
    rw [List.map_cons, List.append_cons] at hws ⊢
    have hw : w.1 ∉ names := by
      rw [List.append_assoc] at hws
      exact fun hmem => (List.nodup_append.mp hws).2.2 w.1 hmem w.1 (by simp) rfl
    exact ih (h.setNamed_new hw row w.2) hws

theorem setRows (h : t.Named names) (hrows : ∀ e ∈ rows, ∀ w ∈ e.2, w.1 ∈ names) :
    (t.setRows rows).Named names := by
  induction rows generalizing t with
  | nil => exact h
  | cons e rows ih =>
    obtain ⟨he, hrows⟩ := List.forall_mem_cons.mp hrows
    exact ih ((h.getRow e.1).setAll_old he e.1) hrows

end Named

theorem rows_setNamed (row : ℕ) (n v : Bytes) (t : Table) : (t.setNamed row n v).rows = t.rows := by
  rw [setNamed_eq]
  rfl

theorem rows_setAll (row : ℕ) (ws : List (Bytes × Bytes)) (t : Table) :
    (t.setAll row ws).rows = t.rows := by
  induction ws generalizing t with
  | nil => rfl
  | cons w ws ih => exact (ih _).trans (rows_setNamed row w.1 w.2 t)

theorem rows_setRows (rows : List (ℕ × List (Bytes × Bytes))) (t : Table) :
    (t.setRows rows).rows = t.rows ∪ (rows.map Prod.fst).toFinset := by
  induction rows generalizing t with
  | nil => simp [setRows]
  | cons e rows ih =>
    have hrest := ih ((t.getRow e.1).setAll e.1 e.2)
    rw [rows_setAll] at hrest
    refine hrest.trans ?_
    ext x
    simp [getRow]

/-- A cell changes only with its own address. -/
theorem cell_setNamed (h : t.Named names) (hn : n ∈ names) {name value : Bytes} :
    (t.setNamed row name value).cell r n =
      if r = row ∧ n = name then some value else t.cell r n := by
  have hmem : n ∈ t.columnsAssociation := h.columnsAssociation ▸ hn
  simp only [cell, idxOf_setNamed hmem, map_setNamed, List.idxOf_inj hmem]

theorem cell_setAll_of_ne (h : t.Named names) (hn : n ∈ names) (hws : ∀ w ∈ ws, w.1 ∈ names)
    (hr : r ≠ row) : (t.setAll row ws).cell r n = t.cell r n := by
  induction ws generalizing t with
  | nil => rfl
  | cons w ws ih =>
    obtain ⟨hw, hws⟩ := List.forall_mem_cons.mp hws
    refine (ih (h.setNamed_old hw row w.2) hws).trans ?_
    rw [cell_setNamed h hn, if_neg fun hsame => hr hsame.1]

/-- What is written to a cell agrees, and is written once at least or stands there. -/
theorem cell_setAll (h : t.Named names) (hn : n ∈ names) (hws : ∀ w ∈ ws, w.1 ∈ names)
    (hagree : ∀ w ∈ ws, w.1 = n → w.2 = v) (hsome : n ∈ ws.map Prod.fst ∨ t.cell row n = some v) :
    (t.setAll row ws).cell row n = some v := by
  induction ws generalizing t with
  | nil => exact hsome.resolve_left List.not_mem_nil
  | cons w ws ih =>
    obtain ⟨hw, hws⟩ := List.forall_mem_cons.mp hws
    obtain ⟨hagreew, hagree⟩ := List.forall_mem_cons.mp hagree
    refine ih (h.setNamed_old hw row w.2) hws hagree ?_
    rw [cell_setNamed h hn]
    by_cases hname : n = w.1
    · exact Or.inr (by rw [if_pos ⟨rfl, hname⟩, hagreew hname.symm])
    · rw [if_neg fun hsame => hname hsame.2]
      exact hsome.imp_left fun hmem => (List.mem_cons.mp hmem).resolve_left hname

theorem cell_setRows (h : t.Named names) (hn : n ∈ names)
    (hrows : ∀ e ∈ rows, ∀ w ∈ e.2, w.1 ∈ names)
    (hagree : ∀ e ∈ rows, e.1 = row → ∀ w ∈ e.2, w.1 = n → w.2 = v)
    (hsome : (∃ e ∈ rows, e.1 = row ∧ n ∈ e.2.map Prod.fst) ∨ t.cell row n = some v) :
    (t.setRows rows).cell row n = some v := by
  induction rows generalizing t with
  | nil => exact hsome.resolve_left fun ⟨e, he, _⟩ => absurd he List.not_mem_nil
  | cons e rows ih =>
    obtain ⟨he, hrows⟩ := List.forall_mem_cons.mp hrows
    obtain ⟨hagreee, hagree⟩ := List.forall_mem_cons.mp hagree
    refine ih ((h.getRow e.1).setAll_old he e.1) hrows hagree ?_
    by_cases hrow : e.1 = row
    · subst hrow
      rcases hsome with ⟨e', he', hrow', hmem⟩ | hcell
      · rcases List.mem_cons.mp he' with rfl | he'
        · exact Or.inr (cell_setAll (h.getRow _) hn he (hagreee rfl) (Or.inl hmem))
        · exact Or.inl ⟨e', he', hrow', hmem⟩
      · exact Or.inr (cell_setAll (h.getRow _) hn he (hagreee rfl) (Or.inr hcell))
    · rw [cell_setAll_of_ne (h.getRow _) hn he (Ne.symm hrow)]
      refine hsome.imp_left fun ⟨e', he', hrow', hmem⟩ => ?_
      rcases List.mem_cons.mp he' with rfl | he'
      · exact absurd hrow' hrow
      · exact ⟨e', he', hrow', hmem⟩

/-- The cells of a row are those of the names, in their order. -/
theorem cells_eq (h : t.Named names) (hnodup : names.Nodup) (row : ℕ) :
    t.cells row = names.map fun n => (t.cell row n).getD [] := by
  rw [cells, h.columns, Finset.sort_range]
  refine List.ext_getElem (by simp) fun i hi hi' => ?_
  rw [List.length_map, List.length_range] at hi
  simp only [List.getElem_map, List.getElem_range, cell, h.columnsAssociation,
    hnodup.idxOf_getElem i hi]

theorem rewriteNames_eq (row : ℕ) (names : List Bytes) (t : Table) :
    rewriteNames row names t =
      t.setAll row ((names.insertionSort (· ≤ ·)).map fun name => (name, name)) := by
  rw [rewriteNames, setAll, List.foldl_map]

section Header

theorem mem_of_mem_twice {w : Bytes × Bytes}
    (hw : w ∈ (names.insertionSort (· ≤ ·)).map fun name => (name, name)) :
    w.1 ∈ names ∧ w.2 = w.1 := by
  obtain ⟨name, hname, rfl⟩ := List.mem_map.mp hw
  exact ⟨(List.mem_insertionSort _).mp hname, rfl⟩

theorem Named.setupHeader (h : t.Named names) (row : ℕ) : (t.setupHeader row).Named names := by
  rw [Table.setupHeader, h.columnsAssociation, rewriteNames_eq]
  exact h.setAll_old (fun w hw => (mem_of_mem_twice hw).1) row

theorem rows_setupHeader (row : ℕ) (t : Table) : (t.setupHeader row).rows = t.rows := by
  rw [setupHeader, rewriteNames_eq, rows_setAll]

theorem cell_setupHeader (h : t.Named names) (hn : n ∈ names) (row : ℕ) :
    (t.setupHeader row).cell row n = some n :=
  (titled_rewriteNames (h.columnsAssociation ▸ hn)).cell

theorem cell_setupHeader_of_ne (h : t.Named names) (hn : n ∈ names) (hr : r ≠ row) :
    (t.setupHeader row).cell r n = t.cell r n := by
  rw [setupHeader, h.columnsAssociation, rewriteNames_eq]
  exact cell_setAll_of_ne h hn (fun w hw => (mem_of_mem_twice hw).1) hr

end Header

section Clear

variable {columns : List ℕ}

theorem foldl_eraseCell (row : ℕ) (columns : List ℕ) (t : Table) :
    columns.foldl (fun t column => t.eraseCell row column) t =
      { t with map := fun r c => if r = row ∧ c ∈ columns then none else t.map r c } := by
  induction columns generalizing t with
  | nil => simp
  | cons column columns ih =>
    rw [List.foldl_cons, ih, eraseCell]
    congr 1
    funext r c
    by_cases hr : r = row <;> by_cases hc : c = column <;> simp [hr, hc]

theorem Named.clear (h : t.Named names) (row : ℕ) : (t.clear row).Named names := by
  rw [Table.clear, foldl_eraseCell]
  dsimp only
  split_ifs
  · exact ⟨h.columnsAssociation, h.columns⟩
  · exact ⟨h.columnsAssociation, h.columns⟩

theorem rows_clear (h : t.Named names) (hnames : names ≠ []) (row : ℕ) :
    (t.clear row).rows = t.rows.erase row := by
  have hcolumns : t.columns.sort (· ≤ ·) ≠ [] := by
    rw [h.columns, Finset.sort_range, Ne, List.range_eq_nil]
    exact fun hlength => hnames (List.length_eq_zero_iff.mp hlength)
  rw [clear, foldl_eraseCell]
  dsimp only
  rw [if_neg hcolumns]

theorem cell_clear_of_ne (row : ℕ) (n : Bytes) (hr : r ≠ row) :
    (t.clear row).cell r n = t.cell r n := by
  rw [clear, foldl_eraseCell]
  dsimp only
  split_ifs <;> simp [cell, hr]

end Clear

end Table

end Octf.Utils
