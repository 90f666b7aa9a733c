import Octf.Analytics.IoStatisticsReport
import Octf.Utils.TableRows

/-! The CSV of a set of histograms. Every device has a table with a row for each begin of a range,
and all tables but the first lose their header. -/
namespace Octf.Interface.HistogramCsv
open Octf.Analytics Octf.Utils Octf.Utils.Protobuf

/-- `proto::EventDeviceDescription` -/
structure EventDeviceDescription where
  id : ℕ
  name : Bytes
  size : ℕ
  model : Bytes

/-- `proto::IoStatisticsDescription` -/
structure IoStatisticsDescription where
  device : Option EventDeviceDescription

/-- `proto::IoHistogram` with the description of its device. -/
structure DeviceHistogram extends IoHistogramReport where
  desc : IoStatisticsDescription

/-! ### The descriptions as messages -/

inductive Described where
  | ioStatisticsDescription
  | eventDeviceDescription
  deriving DecidableEq

def textField (name : Bytes) : Protobuf.FieldDescriptor Described :=
    ⟨name, false, false, none, none⟩

def idField := textField "id".toUTF8.toList
def nameField := textField "name".toUTF8.toList
def sizeField := textField "size".toUTF8.toList
def modelField := textField "model".toUTF8.toList

def deviceField : Protobuf.FieldDescriptor Described :=
  ⟨"device".toUTF8.toList, false, false, none, some .eventDeviceDescription⟩

def descriptions : Schema Described where
  fields
    | .ioStatisticsDescription => [deviceField]
    | .eventDeviceDescription => [idField, nameField, sizeField, modelField]
  names := by rintro (_ | _) <;> decide +kernel

def EventDeviceDescription.message (d : EventDeviceDescription) : Message Described :=
  [(idField, .item (some (decimal d.id))), (nameField, .item (some d.name)),
    (sizeField, .item (some (decimal d.size))), (modelField, .item (some d.model))]

def IoStatisticsDescription.message (d : IoStatisticsDescription) : Message Described :=
  [(deviceField, d.device.elim .absent fun device => .message device.message)]

/-! ### The tables -/

def rangeBegin : Bytes := "rangeBegin".toUTF8.toList
def rangeEnd : Bytes := "rangeEnd".toUTF8.toList
def read : Bytes := "read".toUTF8.toList
def write : Bytes := "write".toUTF8.toList
def discard : Bytes := "discard".toUTF8.toList
def total : Bytes := "total".toUTF8.toList

/-- The ranges of an entry, none for one that is not set. -/
def ranges (entry : Option Histogram) : List HistogramRange := entry.elim [] (·.range)

/-- The body of the loop in `setter`. -/
def setRange (operation : Bytes) (desc : IoStatisticsDescription) (table : Table)
    (range : HistogramRange) : Table :=
  let row := range.begin
  let table := streamMessageToRow row desc.message [] (table.getRow row)
  let table := table.setNamed row rangeBegin (decimal range.begin)
  let table := table.setNamed row rangeEnd (decimal range.end')
  table.setNamed row operation (decimal range.count)

def setter (operation : Bytes) (desc : IoStatisticsDescription) (entry : Option Histogram)
    (table : Table) : Table :=
  (ranges entry).foldl (setRange operation desc) table

/-- The table of a device; `fuel` bounds the descent into its description. -/
def histogramTable (fuel : ℕ) (first : Bool) (histogram : DeviceHistogram) : Option Table := do
  let desc := histogram.desc
  let table ← Utils.setHeader descriptions fuel 0 .ioStatisticsDescription desc.message
    (Table.cleared.getRow 0)
  let table := [rangeBegin, rangeEnd, read, write, discard, total].foldl
    (fun table name => table.setNamed 0 name name) table
  let table := setter read desc histogram.read table
  let table := setter write desc histogram.write table
  let table := setter discard desc histogram.discard table
  let table := setter total desc histogram.total table
  return if first then table.setupHeader 0 else table.clear 0

def histogramTables (fuel : ℕ) : List DeviceHistogram → Option (List Table)
  | [] => some []
  | histogram :: set => do
    let table ← histogramTable fuel true histogram
    let tables ← set.mapM (histogramTable fuel false)
    return table :: tables

/-- `printHistogramCsv`; a line end follows each table. -/
def printHistogramCsv (fuel : ℕ) (set : List DeviceHistogram) : Option Bytes :=
  (histogramTables fuel set).map fun tables => tables.flatMap fun table => table.text ++ [newline]

/-! ### What the rows show -/

def deviceTitle (field : Protobuf.FieldDescriptor Described) : Bytes :=
  deviceField.name ++ [dot] ++ field.name

def titles : List Bytes :=
  [idField, modelField, nameField, sizeField].map deviceTitle ++
    [rangeBegin, rangeEnd, read, write, discard, total]

/-- The ranges of a device, each with its kind. -/
def DeviceHistogram.entries (histogram : DeviceHistogram) : List (Bytes × HistogramRange) :=
  (ranges histogram.read).map (Prod.mk read) ++ (ranges histogram.write).map (Prod.mk write) ++
    (ranges histogram.discard).map (Prod.mk discard) ++
    (ranges histogram.total).map (Prod.mk total)

/-- A row has a value below a title. -/
def Shows (row : List Bytes) (name value : Bytes) : Prop := row[titles.idxOf name]? = some value

/-- A row is for the ranges of a device with a begin. -/
structure ShowsRanges (histogram : DeviceHistogram) (begin : ℕ) (row : List Bytes) : Prop where
  begins : Shows row rangeBegin (decimal begin)
  ends : ∀ e ∈ histogram.entries, e.2.begin = begin → Shows row rangeEnd (decimal e.2.end')
  counts : ∀ e ∈ histogram.entries, e.2.begin = begin → Shows row e.1 (decimal e.2.count)

def DeviceHistogram.begins (histogram : DeviceHistogram) : Finset ℕ :=
  (histogram.entries.map (·.2.begin)).toFinset

/-- There is one row for every begin of a range. -/
def DeviceRows (histogram : DeviceHistogram) (rows : List (List Bytes)) : Prop :=
  ∃ begins : List ℕ, begins.Nodup ∧ begins.toFinset = histogram.begins ∧
    List.Forall₂ (ShowsRanges histogram) begins rows

/-- The rows of the tables are the titles and then those of the devices. -/
def Complete (set : List DeviceHistogram) : Prop :=
  ∃ fuel tables rows, histogramTables fuel set = some tables ∧
    tables.flatMap (·.lines) = titles :: rows.flatten ∧ List.Forall₂ DeviceRows set rows

/-- Ranges of different kinds with a begin in common have the end in common. -/
def EndsAgree (histogram : DeviceHistogram) : Prop :=
  ∀ e ∈ histogram.entries, ∀ e' ∈ histogram.entries, e.1 ≠ e'.1 → e.2.begin = e'.2.begin →
    e.2.end' = e'.2.end'

/-- No range begins at 0, the row of the header, and those of a kind that begin alike are alike. -/
structure Fits (histogram : DeviceHistogram) : Prop where
  begins : ∀ e ∈ histogram.entries, e.2.begin ≠ 0
  alike : ∀ e ∈ histogram.entries, ∀ e' ∈ histogram.entries, e.1 = e'.1 →
    e.2.begin = e'.2.begin → e.2 = e'.2

/-! ### The tables as lists of cells -/

variable {histogram : DeviceHistogram} {desc : IoStatisticsDescription} {t : Table} {fuel : ℕ}

def IoStatisticsDescription.cells (desc : IoStatisticsDescription) : List (Bytes × Bytes) :=
  desc.device.elim [] fun d => [(deviceTitle idField, decimal d.id),
    (deviceTitle nameField, d.name),
    (deviceTitle sizeField, decimal d.size), (deviceTitle modelField, d.model)]

/-- The cells that a range of a kind sets. -/
def rangeCells (desc : IoStatisticsDescription) (e : Bytes × HistogramRange) :
    List (Bytes × Bytes) :=
  desc.cells ++ [(rangeBegin, decimal e.2.begin), (rangeEnd, decimal e.2.end'),
    (e.1, decimal e.2.count)]

theorem streamMessageToRow_message (row : ℕ) (desc : IoStatisticsDescription) (t : Table) :
    streamMessageToRow row desc.message [] t = t.setAll row desc.cells := by
  cases hdevice : desc.device <;>
    simp [IoStatisticsDescription.message, IoStatisticsDescription.cells, hdevice, Table.setAll,
      EventDeviceDescription.message, streamMessageToRow, streamFieldToRow, deviceTitle]

theorem setRange_eq (operation : Bytes) (desc : IoStatisticsDescription) (t : Table)
    (range : HistogramRange) : setRange operation desc t range =
      (t.getRow range.begin).setAll range.begin (rangeCells desc (operation, range)) := by
  simp only [setRange, streamMessageToRow_message, rangeCells, Table.setAll, List.foldl_append,
    List.foldl_cons, List.foldl_nil]

/-- The rows that the ranges of a device set. -/
def DeviceHistogram.rangeRows (histogram : DeviceHistogram) : List (ℕ × List (Bytes × Bytes)) :=
  histogram.entries.map fun e => (e.2.begin, rangeCells histogram.desc e)

theorem setter_eq (operation : Bytes) (desc : IoStatisticsDescription) (entry : Option Histogram)
    (t : Table) : setter operation desc entry t = t.setRows (((ranges entry).map
      (Prod.mk operation)).map fun e => (e.2.begin, rangeCells desc e)) := by
  have hstep : setRange operation desc = fun t range =>
      (t.getRow range.begin).setAll range.begin (rangeCells desc (operation, range)) := by
    funext t range
    exact setRange_eq operation desc t range
  rw [setter, Table.setRows, List.foldl_map, List.foldl_map, hstep]

theorem setters_eq (histogram : DeviceHistogram) (t : Table) :
    setter total histogram.desc histogram.total (setter discard histogram.desc histogram.discard
      (setter write histogram.desc histogram.write (setter read histogram.desc histogram.read t))) =
      t.setRows histogram.rangeRows := by
  simp only [setter_eq, DeviceHistogram.rangeRows, DeviceHistogram.entries, List.map_append,
    Table.setRows, List.foldl_append]

/-- The titles of the fields of a device, in their order. -/
def deviceTitles : List Bytes := [idField, nameField, sizeField, modelField].map deviceTitle

theorem setupRowAsHeader_descriptions (fuel row : ℕ) (t : Table) :
    setupRowAsHeader descriptions row (fuel + 2) .ioStatisticsDescription [] t =
      some (t.setAll row (deviceTitles.map fun name => (name, name))) := by
  simp [setupRowAsHeader, setupField, setupOneof, descriptions, deviceField, idField, nameField,
    sizeField, modelField, textField, deviceTitles, deviceTitle, Table.setAll]

theorem titles_nodup : titles.Nodup := by decide +kernel

theorem sorted_deviceTitles : deviceTitles.insertionSort (· ≤ ·) =
    [idField, modelField, nameField, sizeField].map deviceTitle := by decide +kernel

theorem deviceTitles_nodup : deviceTitles.Nodup := by decide +kernel

theorem map_fst_cells (h : desc.device ≠ none) : desc.cells.map Prod.fst = deviceTitles := by
  obtain ⟨d, hd⟩ := Option.ne_none_iff_exists'.mp h
  simp [IoStatisticsDescription.cells, hd, deviceTitles]

theorem map_fst_twice (names : List Bytes) :
    (names.map fun name => (name, name)).map Prod.fst = names := by
  simp [Function.comp_def]

/-- Also a description without a device gives the header the titles of its fields. -/
theorem named_descriptions (desc : IoStatisticsDescription) :
    ((streamMessageToRow 0 desc.message [] (Table.cleared.getRow 0)).setAll 0
      (deviceTitles.map fun name => (name, name))).Named deviceTitles := by
  have hcleared : (Table.cleared.getRow 0).Named [] := ⟨rfl, rfl⟩
  rw [streamMessageToRow_message]
  by_cases hdevice : desc.device = none
  · have hcells : desc.cells = [] := by simp [IoStatisticsDescription.cells, hdevice]
    have hnodup : ([] ++ (deviceTitles.map fun name => (name, name)).map Prod.fst).Nodup := by
      rw [map_fst_twice]
      exact deviceTitles_nodup
    have hnew := hcleared.setAll_new hnodup 0
    rw [hcells]
    rwa [map_fst_twice] at hnew
  · have hnodup : ([] ++ desc.cells.map Prod.fst).Nodup := by
      rw [map_fst_cells hdevice]
      exact deviceTitles_nodup
    have hnew := hcleared.setAll_new hnodup 0
    rw [map_fst_cells hdevice] at hnew
    refine hnew.setAll_old (fun w hw => ?_) 0
    obtain ⟨name, hname, rfl⟩ := List.mem_map.mp hw
    exact hname

/-- The header of a table before the rows of a device are set. -/
def headerTable : Table := (Table.cleared.getRow 0).setAll 0 (titles.map fun name => (name, name))

theorem named_headerTable : headerTable.Named titles := by
  have hcleared : (Table.cleared.getRow 0).Named [] := ⟨rfl, rfl⟩
  have hnodup : ([] ++ (titles.map fun name => (name, name)).map Prod.fst).Nodup := by
    rw [map_fst_twice]
    exact titles_nodup
  have hnew := hcleared.setAll_new hnodup 0
  rwa [map_fst_twice] at hnew

theorem rows_headerTable : headerTable.rows = {0} := by
  rw [headerTable, Table.rows_setAll]
  rfl

/-- With enough depth the header is set up, and the table is filled by its ranges. -/
theorem histogramTable_eq (fuel : ℕ) (first : Bool) (histogram : DeviceHistogram) :
    histogramTable (fuel + 2) first histogram = some
      (if first then (headerTable.setRows histogram.rangeRows).setupHeader 0
        else (headerTable.setRows histogram.rangeRows).clear 0) := by
  have hheader : Utils.setHeader descriptions (fuel + 2) 0 .ioStatisticsDescription
      histogram.desc.message (Table.cleared.getRow 0) = some ((Table.cleared.getRow 0).setAll 0
        ((deviceTitles.insertionSort (· ≤ ·)).map fun name => (name, name))) := by
    simp only [Utils.setHeader, setupRowAsHeader_descriptions, Option.bind_eq_bind,
      Option.bind_some, Option.pure_def,
      (named_descriptions histogram.desc).columnsAssociation, Table.rewriteNames_eq]
  have htitles : [rangeBegin, rangeEnd, read, write, discard, total].foldl
      (fun table name => table.setNamed 0 name name) ((Table.cleared.getRow 0).setAll 0
        ((deviceTitles.insertionSort (· ≤ ·)).map fun name => (name, name))) = headerTable := by
    simp only [headerTable, titles, sorted_deviceTitles, Table.setAll, List.map_append,
      List.foldl_append, List.foldl_map]
  simp only [histogramTable, hheader, Option.bind_eq_bind, Option.bind_some, htitles, setters_eq,
    Option.pure_def]

theorem histogramTable_shallow (h : fuel < 2) (first : Bool) :
    histogramTable fuel first histogram = none := by
  have hheader : Utils.setHeader descriptions fuel 0 .ioStatisticsDescription
      histogram.desc.message (Table.cleared.getRow 0) = none := by
    rcases fuel with _ | _ | fuel
    · rfl
    · simp [Utils.setHeader, setupRowAsHeader, setupField, descriptions, deviceField]
    · omega
  simp only [histogramTable, hheader, Option.bind_eq_bind, Option.bind_none]

/-! ### The cells of a range -/

variable {e e' : Bytes × HistogramRange} {w : Bytes × Bytes} {n : Bytes} {b : ℕ}

def operations : List Bytes := [read, write, discard, total]

/-- The titles of a device, of a range and of the kinds are different. -/
theorem groups_nodup : (deviceTitles ++ ([rangeBegin, rangeEnd] ++ operations)).Nodup := by
  decide +kernel

theorem mem_titles (h : n ∈ deviceTitles ++ ([rangeBegin, rangeEnd] ++ operations)) :
    n ∈ titles := by
  have hall : ∀ n ∈ deviceTitles ++ ([rangeBegin, rangeEnd] ++ operations), n ∈ titles := by
    decide +kernel
  exact hall n h

theorem mem_operations (he : e ∈ histogram.entries) : e.1 ∈ operations := by
  simp only [DeviceHistogram.entries, List.mem_append, List.mem_map] at he
  rcases he with ((⟨_, _, rfl⟩ | ⟨_, _, rfl⟩) | ⟨_, _, rfl⟩) | ⟨_, _, rfl⟩ <;> simp [operations]

theorem fst_mem_cells (hw : w ∈ desc.cells) : w.1 ∈ deviceTitles := by
  by_cases hdevice : desc.device = none
  · simp [IoStatisticsDescription.cells, hdevice] at hw
  · rw [← map_fst_cells hdevice]
    exact List.mem_map_of_mem hw

theorem mem_rangeCells : w ∈ rangeCells desc e ↔ w ∈ desc.cells ∨
    w = (rangeBegin, decimal e.2.begin) ∨
    w = (rangeEnd, decimal e.2.end') ∨ w = (e.1, decimal e.2.count) := by
  simp [rangeCells]

/-- A range sets the cells of its own kind only, and none of them is a cell of the device. -/
theorem snd_rangeCells (he : e ∈ histogram.entries) (hw : w ∈ rangeCells desc e) :
    (w.1 = rangeBegin → w.2 = decimal e.2.begin) ∧ (w.1 = rangeEnd → w.2 = decimal e.2.end') ∧
      (w.1 ∈ operations → w.1 = e.1 ∧ w.2 = decimal e.2.count) := by
  have hop := mem_operations he
  have hnodup := groups_nodup
  simp only [List.nodup_append, List.mem_append, List.mem_cons, List.not_mem_nil, or_false,
    List.nodup_cons] at hnodup
  obtain ⟨-, ⟨⟨hends, -⟩, -, hkinds⟩, hdevice⟩ := hnodup
  rcases mem_rangeCells.mp hw with hw | rfl | rfl | rfl
  · have hfst := fst_mem_cells hw
    exact ⟨fun h => absurd h (hdevice _ hfst _ (Or.inl (Or.inl rfl))),
      fun h => absurd h (hdevice _ hfst _ (Or.inl (Or.inr rfl))),
      fun h => absurd rfl (hdevice _ hfst _ (Or.inr h))⟩
  · exact ⟨fun _ => rfl, fun h => absurd h hends,
      fun h => absurd rfl (hkinds _ (Or.inl rfl) _ h)⟩
  · exact ⟨fun h => absurd h.symm hends, fun _ => rfl,
      fun h => absurd rfl (hkinds _ (Or.inr rfl) _ h)⟩
  · exact ⟨fun h => absurd h.symm (hkinds _ (Or.inl rfl) _ hop),
      fun h => absurd h.symm (hkinds _ (Or.inr rfl) _ hop), fun _ => ⟨rfl, rfl⟩⟩

theorem fst_rangeCells (he : e ∈ histogram.entries) (hw : w ∈ rangeCells desc e) :
    w.1 ∈ titles := by
  refine mem_titles ?_
  rcases mem_rangeCells.mp hw with hw | rfl | rfl | rfl
  · exact List.mem_append_left _ (fst_mem_cells hw)
  · simp
  · simp
  · exact List.mem_append_right _ (List.mem_append_right _ (mem_operations he))

/-! ### The filled table -/

def filled (histogram : DeviceHistogram) : Table := headerTable.setRows histogram.rangeRows

theorem rangeRows_titles (histogram : DeviceHistogram) :
    ∀ row ∈ histogram.rangeRows, ∀ w ∈ row.2, w.1 ∈ titles := by
  intro row hrow w hw
  obtain ⟨e, he, rfl⟩ := List.mem_map.mp hrow
  exact fst_rangeCells he hw

theorem named_filled (histogram : DeviceHistogram) : (filled histogram).Named titles :=
  named_headerTable.setRows (rangeRows_titles histogram)

theorem rows_filled (histogram : DeviceHistogram) :
    (filled histogram).rows = insert 0 histogram.begins := by
  rw [filled, Table.rows_setRows, rows_headerTable, Finset.singleton_union,
    DeviceHistogram.rangeRows, List.map_map]
  rfl

/-- A cell for which the ranges with its begin agree. -/
theorem cell_filled {v : Bytes} (hn : n ∈ titles) (he : e ∈ histogram.entries)
    (hset : n ∈ (rangeCells histogram.desc e).map Prod.fst)
    (hagree : ∀ e' ∈ histogram.entries, e'.2.begin = e.2.begin →
      ∀ w ∈ rangeCells histogram.desc e', w.1 = n → w.2 = v) :
    (filled histogram).cell e.2.begin n = some v := by
  refine Table.cell_setRows named_headerTable hn (rangeRows_titles histogram) ?_
    (Or.inl ⟨_, List.mem_map_of_mem he, rfl, hset⟩)
  intro row hrow hbegin
  obtain ⟨e', he', rfl⟩ := List.mem_map.mp hrow
  exact hagree e' he' hbegin

/-- The cells of a row below all titles. -/
def filledRow (histogram : DeviceHistogram) (b : ℕ) : List Bytes :=
  titles.map fun n => ((filled histogram).cell b n).getD []

theorem shows_filledRow {v : Bytes} (hn : n ∈ titles) (h : (filled histogram).cell b n = some v) :
    Shows (filledRow histogram b) n v := by
  rw [Shows, filledRow, List.getElem?_map, List.getElem?_idxOf hn, Option.map_some, h,
    Option.getD_some]

theorem showsRanges_filledRow (hends : EndsAgree histogram) (hfits : Fits histogram)
    (hb : b ∈ histogram.begins) : ShowsRanges histogram b (filledRow histogram b) := by
  have hmem : rangeBegin ∈ titles ∧ rangeEnd ∈ titles :=
    ⟨mem_titles (by simp), mem_titles (by simp)⟩
  obtain ⟨e, he, rfl⟩ := List.mem_map.mp (List.mem_toFinset.mp hb)
  -- ranges that begin alike have their ends in common
  have hsame : ∀ e₁ ∈ histogram.entries, ∀ e₂ ∈ histogram.entries, e₁.2.begin = e₂.2.begin →
      e₁.2.end' = e₂.2.end' := by
    intro e₁ he₁ e₂ he₂ hbegin
    by_cases hkind : e₁.1 = e₂.1
    · rw [hfits.alike e₁ he₁ e₂ he₂ hkind hbegin]
    · exact hends e₁ he₁ e₂ he₂ hkind hbegin
  refine ⟨shows_filledRow hmem.1 (cell_filled hmem.1 he (by simp [rangeCells]) ?_), ?_, ?_⟩
  · intro e' he' hbegin w hw hname
    rw [(snd_rangeCells he' hw).1 hname, hbegin]
  · intro e' he' hbegin
    rw [← hbegin]
    refine shows_filledRow hmem.2 (cell_filled hmem.2 he' (by simp [rangeCells]) ?_)
    intro e'' he'' hbegin' w hw hname
    rw [(snd_rangeCells he'' hw).2.1 hname, hsame e'' he'' e' he' hbegin']
  · intro e' he' hbegin
    rw [← hbegin]
    have hop : e'.1 ∈ titles :=
      mem_titles (List.mem_append_right _ (List.mem_append_right _ (mem_operations he')))
    refine shows_filledRow hop (cell_filled hop he' (by simp [rangeCells]) ?_)
    intro e'' he'' hbegin' w hw hname
    obtain ⟨hkind, hcount⟩ := (snd_rangeCells he'' hw).2.2 (hname ▸ mem_operations he')
    rw [hcount, hfits.alike e'' he'' e' he' (hkind.symm.trans hname) hbegin']

/-! ### The printed rows -/

variable {set : List DeviceHistogram} {rows : List (List (List Bytes))}

/-- The rows of a device that stay apart from the row of the header. -/
def deviceLines (histogram : DeviceHistogram) : List (List Bytes) :=
  ((histogram.begins.erase 0).sort (· ≤ ·)).map (filledRow histogram)

theorem lines_setupHeader (histogram : DeviceHistogram) :
    ((filled histogram).setupHeader 0).lines = titles :: deviceLines histogram := by
  have hnamed := named_filled histogram
  have hcells := Table.cells_eq (hnamed.setupHeader 0) titles_nodup
  have hsort : (insert 0 histogram.begins).sort (· ≤ ·) =
      0 :: (histogram.begins.erase 0).sort (· ≤ ·) := by
    have hinsert : insert 0 histogram.begins = insert 0 (histogram.begins.erase 0) := by
      ext b
      by_cases hb : b = 0 <;> simp [hb]
    rw [hinsert, Finset.sort_insert (· ≤ ·) (fun b _ => Nat.zero_le b) (Finset.notMem_erase 0 _)]
  rw [Table.lines, Table.rows_setupHeader, rows_filled, hsort, List.map_cons, hcells]
  refine congrArg₂ List.cons ?_ (List.map_congr_left fun b hb => ?_)
  · refine (List.map_congr_left fun n hn => ?_).trans (List.map_id titles)
    rw [Table.cell_setupHeader hnamed hn, Option.getD_some, id]
  · rw [hcells]
    refine List.map_congr_left fun n hn => ?_
    rw [Table.cell_setupHeader_of_ne hnamed hn]
    exact Finset.ne_of_mem_erase ((Finset.mem_sort _).mp hb)

theorem lines_clear (histogram : DeviceHistogram) :
    ((filled histogram).clear 0).lines = deviceLines histogram := by
  have hnamed := named_filled histogram
  have hrows : (insert 0 histogram.begins).erase 0 = histogram.begins.erase 0 :=
    Finset.erase_insert_eq_erase _ _
  rw [Table.lines, Table.rows_clear hnamed (by simp [titles]), rows_filled, hrows]
  refine List.map_congr_left fun b hb => ?_
  rw [Table.cells_eq (hnamed.clear 0) titles_nodup]
  refine List.map_congr_left fun n hn => ?_
  rw [Table.cell_clear_of_ne 0 n (Finset.ne_of_mem_erase ((Finset.mem_sort _).mp hb))]

theorem mapM_histogramTable (fuel : ℕ) (set : List DeviceHistogram) :
    set.mapM (histogramTable (fuel + 2) false) =
      some (set.map fun histogram => (filled histogram).clear 0) := by
  induction set with
  | nil => rfl
  | cons histogram set ih =>
    rw [List.mapM_cons, histogramTable_eq, ih]
    rfl

/-- The rows of the tables of a set. -/
theorem lines_histogramTables {tables : List Table} (h : histogramTables fuel set = some tables)
    (hset : set ≠ []) : tables.flatMap (·.lines) = titles :: set.flatMap deviceLines := by
  obtain ⟨histogram, set, rfl⟩ := List.exists_cons_of_ne_nil hset
  rw [histogramTables] at h
  by_cases hfuel : fuel < 2
  · rw [histogramTable_shallow hfuel] at h
    cases h
  · obtain ⟨fuel, rfl⟩ := Nat.exists_eq_add_of_le' (Nat.le_of_not_lt hfuel)
    rw [histogramTable_eq, mapM_histogramTable] at h
    obtain rfl := Option.some.inj h
    rw [List.flatMap_cons, if_pos rfl, ← filled, lines_setupHeader, List.flatMap_map]
    simp only [lines_clear, List.flatMap_cons, List.cons_append]

theorem exists_of_forall₂ {α β : Type} {R : α → β → Prop} {as : List α} {bs : List β}
    (h : List.Forall₂ R as bs) {a : α} (ha : a ∈ as) : ∃ b ∈ bs, R a b := by
  induction h with
  | nil => exact absurd ha List.not_mem_nil
  | cons hab _ ih =>
    rcases List.mem_cons.mp ha with rfl | ha
    · exact ⟨_, List.mem_cons_self, hab⟩
    · obtain ⟨b, hb, hr⟩ := ih ha
      exact ⟨b, List.mem_cons_of_mem _ hb, hr⟩

theorem DeviceRows.length {lines : List (List Bytes)} (h : DeviceRows histogram lines) :
    lines.length = histogram.begins.card := by
  obtain ⟨begins, hnodup, hbegins, hrows⟩ := h
  rw [← hrows.length_eq, ← hbegins, List.toFinset_card_of_nodup hnodup]

theorem sum_length (h : List.Forall₂ DeviceRows set rows) :
    rows.flatten.length = (set.map (·.begins.card)).sum := by
  induction h with
  | nil => rfl
  | cons hrows _ ih =>
    rw [List.flatten_cons, List.length_append, ih, hrows.length, List.map_cons, List.sum_cons]

/-- A row shows one value below a title. -/
theorem Shows.eq {row : List Bytes} {k k' : ℕ} (h : Shows row n (decimal k))
    (h' : Shows row n (decimal k')) : k = k' :=
  decimal_injective (Option.some.inj (h.symm.trans h'))

theorem DeviceRows.alike {lines : List (List Bytes)} (h : DeviceRows histogram lines)
    (he : e ∈ histogram.entries) (he' : e' ∈ histogram.entries) (hkind : e.1 = e'.1)
    (hbegin : e.2.begin = e'.2.begin) : e.2 = e'.2 := by
  obtain ⟨begins, -, hbegins, hrows⟩ := h
  have hb : e.2.begin ∈ begins := by
    rw [← List.mem_toFinset, hbegins]
    exact List.mem_toFinset.mpr (List.mem_map.mpr ⟨e, he, rfl⟩)
  obtain ⟨row, -, hrow⟩ := exists_of_forall₂ hrows hb
  have hend := (hrow.ends e he rfl).eq (hrow.ends e' he' hbegin.symm)
  have hcount := (hrow.counts e he rfl).eq (hkind ▸ hrow.counts e' he' hbegin.symm)
  cases hrange : e.2
  cases hrange' : e'.2
  simp_all

theorem length_deviceLines (histogram : DeviceHistogram) :
    (deviceLines histogram).length = (histogram.begins.erase 0).card := by
  rw [deviceLines, List.length_map, Finset.length_sort]

/-- Where the printed rows are complete, none was written in the row of the header. -/
theorem zero_notMem_begins (hrows : List.Forall₂ DeviceRows set rows)
    (hlines : set.flatMap deviceLines = rows.flatten) (hmem : histogram ∈ set) :
    0 ∉ histogram.begins := by
  intro hzero
  have hlt : (set.map fun h => (h.begins.erase 0).card).sum < (set.map (·.begins.card)).sum :=
    List.sum_lt_sum _ _ (fun h _ => Finset.card_erase_le)
      ⟨histogram, hmem, Finset.card_erase_lt_of_mem hzero⟩
  have hlength := sum_length hrows
  rw [← hlines, List.length_flatMap] at hlength
  simp only [length_deviceLines] at hlength
  omega

/-- The printed rows are complete exactly if there is a device, no range begins at 0, and the ranges
of a kind of a device that begin alike are alike. -/
theorem complete_iff (set : List DeviceHistogram) (hends : ∀ histogram ∈ set, EndsAgree histogram) :
    Complete set ↔ set ≠ [] ∧ ∀ histogram ∈ set, Fits histogram := by
  constructor
  · rintro ⟨fuel, tables, rows, htables, hlines, hrows⟩
    have hset : set ≠ [] := by
      rintro rfl
      obtain rfl := Option.some.inj htables
      cases hlines
    rw [lines_histogramTables htables hset] at hlines
    have hflat := (List.cons.inj hlines).2
    refine ⟨hset, fun histogram hmem => ⟨fun e he hzero => ?_, fun e he e' he' => ?_⟩⟩
    · refine zero_notMem_begins hrows hflat hmem ?_
      rw [← hzero]
      exact List.mem_toFinset.mpr (List.mem_map.mpr ⟨e, he, rfl⟩)
    · obtain ⟨lines, -, hdevice⟩ := exists_of_forall₂ hrows hmem
      exact hdevice.alike he he'
  · rintro ⟨hset, hfits⟩
    obtain ⟨tables, htables⟩ : ∃ tables, histogramTables 2 set = some tables := by
      obtain ⟨histogram, set, rfl⟩ := List.exists_cons_of_ne_nil hset
      rw [histogramTables, histogramTable_eq 0, mapM_histogramTable 0]
      exact ⟨_, rfl⟩
    refine ⟨2, tables, set.map deviceLines, htables, ?_, ?_⟩
    · rw [lines_histogramTables htables hset, List.flatMap_def]
    · rw [List.forall₂_map_right_iff, List.forall₂_same]
      intro histogram hmem
      have hzero : 0 ∉ histogram.begins := by
        intro hzero
        obtain ⟨e, he, hbegin⟩ := List.mem_map.mp (List.mem_toFinset.mp hzero)
        exact (hfits histogram hmem).begins e he hbegin
      refine ⟨histogram.begins.sort (· ≤ ·), Finset.sort_nodup _ _, Finset.sort_toFinset _ _, ?_⟩
      rw [deviceLines, Finset.erase_eq_of_notMem hzero, List.forall₂_map_right_iff,
        List.forall₂_same]
      intro b hb
      exact showsRanges_filledRow (hends histogram hmem) (hfits histogram hmem)
        ((Finset.mem_sort _).mp hb)

/-- Reads and writes of a device in one range. -/
def oneRange : DeviceHistogram where
  read := some ⟨"sector", [⟨8, 15, 3⟩]⟩
  write := some ⟨"sector", [⟨8, 15, 1⟩]⟩
  discard := none
  flush := none
  total := some ⟨"sector", [⟨8, 15, 4⟩]⟩
  duration := 1
  desc := ⟨some ⟨1, "sda".toUTF8.toList, 64, []⟩⟩

theorem complete_iff_oneRange : Complete [oneRange] ↔
    [oneRange] ≠ [] ∧ ∀ histogram ∈ [oneRange], Fits histogram :=
  complete_iff [oneRange] (by
    rw [List.forall_mem_singleton, EndsAgree]
    decide +kernel)

/-- A read from the first sector of a device. -/
def firstSector : DeviceHistogram :=
  { oneRange with read := some ⟨"sector", [⟨0, 7, 3⟩]⟩ }

/-- The range of the first sector is written in the row of the header. -/
theorem not_complete_firstSector : EndsAgree firstSector ∧ ¬ Complete [firstSector] := by
  constructor
  · rw [EndsAgree]
    decide +kernel
  · rintro ⟨fuel, tables, rows, htables, hlines, hrows⟩
    rw [lines_histogramTables htables (by simp)] at hlines
    exact zero_notMem_begins hrows (List.cons.inj hlines).2 List.mem_cons_self (by decide +kernel)

end Octf.Interface.HistogramCsv
