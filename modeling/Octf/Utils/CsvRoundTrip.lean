import Mathlib.Algebra.BigOperators.Group.List.Basic
import Mathlib.Algebra.Ring.Nat
import Octf.Utils.CsvParser

/-! What the parser makes of a content: one record is read back as it was written, and of more
records none but the first is, since the token index is never set back. -/
namespace Octf.Utils
open Foundation

/-! ### The header -/

/-- The table after these names of the header. -/
structure HeaderRead (names : List Bytes) (t : Table) : Prop where
  rows : t.rows = {0}
  columns : t.columns = Finset.range names.length
  columnsAssociation : t.columnsAssociation = names
  map : t.map = fun row column => if row = 0 then names[column]? else none

theorem headerRead_cleared : HeaderRead [] (Table.cleared.getRow 0) where
  rows := rfl
  columns := rfl
  columnsAssociation := rfl
  map := by simp [Table.cleared, Table.getRow]

namespace HeaderRead

variable {names : List Bytes} {t : Table}

theorem size (h : HeaderRead names t) : t.size = names.length := by
  rw [Table.size, h.columns, Finset.card_range]

/-- One further name that was not there before. -/
theorem append {token : Bytes} (h : HeaderRead names t) (hnew : token ∉ names) :
    HeaderRead (names ++ [token])
      (((t.getColumnAssociation token).2.access 0 names.length).setCell 0 names.length token) := by
  have hidx : names.idxOf token = names.length := List.idxOf_eq_length hnew
  have hcell : t.map 0 names.length = none := by simp [h.map]
  have hassoc : t.getColumnAssociation token =
      (names.length, { t with columnsAssociation := names ++ [token] }) := by
    simp [Table.getColumnAssociation, h.columnsAssociation, hidx]
  simp only [hassoc, Table.access, hcell, if_true]
  constructor
  · exact h.rows
  · simp only [Table.setCell, h.columns, Finset.insert_idem]
    rw [List.length_append, List.length_singleton, Finset.range_add_one]
  · rfl
  · funext row column
    simp only [Table.setCell, h.map]
    by_cases hrow : row = 0
    · subst hrow
      rcases Nat.lt_trichotomy column names.length with hlt | rfl | hgt
      · simp [hlt, Nat.ne_of_lt hlt, List.getElem?_append_left hlt]
      · simp
      · have hnone : (names ++ [token])[column]? = none := by
          rw [List.getElem?_eq_none_iff, List.length_append, List.length_singleton]
          omega
        simp [hnone, Nat.ne_of_gt hgt, hgt.le]
    · simp [hrow]

/-- The whole header is read exactly when no name is there twice. -/
theorem parseHeader_spec (h : HeaderRead names t) (hnodup : names.Nodup) (tokens : List Bytes) :
    if (names ++ tokens).Nodup then
      ∃ t', parseHeader tokens t = (.ok (), t') ∧ HeaderRead (names ++ tokens) t'
    else ∃ token t', parseHeader tokens t = (.error (.duplicate token), t') := by
  induction tokens generalizing names t with
  | nil =>
    rw [List.append_nil, if_pos hnodup]
    exact ⟨t, rfl, h⟩
  | cons token tokens ih =>
    by_cases hnew : token ∈ names
    · have hidx : names.idxOf token < names.length := List.idxOf_lt_length_of_mem hnew
      have hdup : ¬ (names ++ token :: tokens).Nodup := fun hall =>
        (List.nodup_append.mp hall).2.2 token hnew token List.mem_cons_self rfl
      rw [if_neg hdup]
      refine ⟨token, t.access 0 (names.idxOf token), ?_⟩
      simp [parseHeader, Table.getColumnAssociation, h.columnsAssociation, h.size, hidx]
    · have hidx : names.idxOf token = names.length := List.idxOf_eq_length hnew
      have hstep : parseHeader (token :: tokens) t = parseHeader tokens
          (((t.getColumnAssociation token).2.access 0 names.length).setCell 0 names.length
            token) := by
        simp [parseHeader, Table.getColumnAssociation, h.columnsAssociation, h.size, hidx]
      have hnodup' : (names ++ [token]).Nodup := by
        refine List.nodup_append.mpr ⟨hnodup, List.nodup_singleton _, ?_⟩
        rintro name hname _ hmem rfl
        exact hnew (List.mem_singleton.mp hmem ▸ hname)
      rw [hstep]
      have hrest := ih (h.append hnew) hnodup'
      rwa [List.append_assoc] at hrest

end HeaderRead

/-! ### The records -/

/-- The tokens of a record find room behind the token index, or there is an exception. -/
theorem parseTokens_spec {columns : ℕ} (lineIndex : ℕ) {tokens : List Bytes} {tokenIndex : ℕ}
    {t : Table} (hcolumns : t.columns = Finset.range columns) (hindex : tokenIndex ≤ columns) :
    if tokenIndex + tokens.length ≤ columns then
      ∃ t', parseTokens lineIndex tokens tokenIndex t = (.ok (tokenIndex + tokens.length), t') ∧
        t'.columns = Finset.range columns ∧
        t'.rows = (if tokens = [] then t.rows else insert lineIndex t.rows) ∧
        t'.map = fun row column => if row = lineIndex ∧ tokenIndex ≤ column ∧
          column < tokenIndex + tokens.length then tokens[column - tokenIndex]?
          else t.map row column
    else ∃ t', parseTokens lineIndex tokens tokenIndex t = (.error .recordWithoutHeader, t') := by
  induction tokens generalizing tokenIndex t with
  | nil =>
    rw [List.length_nil, Nat.add_zero, if_pos hindex]
    refine ⟨t, rfl, hcolumns, rfl, ?_⟩
    funext row column
    rw [if_neg (by omega)]
  | cons token tokens ih =>
    have hsize : t.size = columns := by rw [Table.size, hcolumns, Finset.card_range]
    by_cases hfull : columns ≤ tokenIndex
    · rw [if_neg (by rw [List.length_cons]; omega)]
      exact ⟨t, by rw [parseTokens, if_pos (by omega)]⟩
    · have hstep : parseTokens lineIndex (token :: tokens) tokenIndex t =
          parseTokens lineIndex tokens (tokenIndex + 1)
            ((t.getRow lineIndex).setCell lineIndex tokenIndex token) := by
        rw [parseTokens, if_neg (by omega)]
      have hcolumns' : ((t.getRow lineIndex).setCell lineIndex tokenIndex token).columns =
          Finset.range columns := by
        simp only [Table.setCell, Table.getRow, hcolumns]
        exact Finset.insert_eq_of_mem (Finset.mem_range.mpr (by omega))
      have hnext : tokenIndex + 1 ≤ columns := not_le.mp hfull
      have hrest := ih hcolumns' hnext
      have hlength : tokenIndex + 1 + tokens.length = tokenIndex + (token :: tokens).length := by
        rw [List.length_cons]
        omega
      rw [hlength, ← hstep] at hrest
      by_cases hfit : tokenIndex + (token :: tokens).length ≤ columns
      · rw [if_pos hfit] at hrest ⊢
        obtain ⟨t', hrun, hcols, hrows, hmap⟩ := hrest
        refine ⟨t', hrun, hcols, ?_, ?_⟩
        · rw [hrows, if_neg (List.cons_ne_nil token tokens)]
          split_ifs <;> simp [Table.setCell, Table.getRow]
        · rw [hmap]
          funext row column
          simp only [Table.setCell, Table.getRow]
          by_cases hcell : row = lineIndex ∧ column = tokenIndex
          · obtain ⟨rfl, rfl⟩ := hcell
            simp
          · rw [if_neg hcell]
            by_cases hin : row = lineIndex ∧ tokenIndex + 1 ≤ column ∧
                column < tokenIndex + (token :: tokens).length
            · rw [if_pos hin, if_pos ⟨hin.1, by omega, hin.2.2⟩,
                show column - tokenIndex = column - (tokenIndex + 1) + 1 by omega,
                List.getElem?_cons_succ]
            · rw [if_neg hin, if_neg (by omega)]
      · rw [if_neg hfit] at hrest ⊢
        exact hrest

/-- The number of tokens in some lines. -/
def tokenCount (lines : List Bytes) : ℕ := (lines.map fun line => (getlines comma line).length).sum

/-- All records are read exactly when they have no more tokens together than the header. -/
theorem parseRecords_spec {columns lineCount : ℕ} {lines : List Bytes} {lineIndex tokenIndex : ℕ}
    {t : Table} (hcolumns : t.columns = Finset.range columns) (hpos : 0 < columns)
    (hindex : tokenIndex ≤ columns) (hlines : lineIndex + lines.length ≤ lineCount) :
    (parseRecords lineCount lines lineIndex tokenIndex t).1 =
      if tokenIndex + tokenCount lines ≤ columns then .ok () else .error .recordWithoutHeader := by
  induction lines generalizing lineIndex tokenIndex t with
  | nil => rw [tokenCount, List.map_nil, List.sum_nil, Nat.add_zero, if_pos hindex, parseRecords]
  | cons line lines ih =>
    have hcount : tokenCount (line :: lines) =
        (getlines comma line).length + tokenCount lines := by
      rw [tokenCount, List.map_cons, List.sum_cons, tokenCount]
    rw [List.length_cons] at hlines
    rw [parseRecords, if_neg (by omega), hcount]
    have hspec := @parseTokens_spec columns lineIndex (getlines comma line) tokenIndex t hcolumns
      hindex
    by_cases hfit : tokenIndex + (getlines comma line).length ≤ columns
    · rw [if_pos hfit] at hspec
      obtain ⟨t', hrun, hcols, -, -⟩ := hspec
      have hsize : t'.size = columns := by rw [Table.size, hcols, Finset.card_range]
      simp only [hrun]
      rw [ih _ hfit (by omega), Nat.add_assoc]
      split_ifs
      · simp only [Table.setCell, Table.getRow, hcols, hsize]
        exact Finset.insert_eq_of_mem (Finset.mem_range.mpr (by omega))
      · exact hcols
    · rw [if_neg hfit] at hspec
      obtain ⟨t', hrun⟩ := hspec
      have hmore : ¬ tokenIndex + ((getlines comma line).length + tokenCount lines) ≤ columns :=
        fun hle => hfit (by omega)
      simp only [hrun]
      rw [if_neg hmore]

/-! ### The content -/

namespace IStream

/-- The lines from the set position on: a header and records. -/
def lines (s : IStream) : List Bytes := getlines newline s.content

def header (s : IStream) : Bytes := s.lines.headD []

def records (s : IStream) : List Bytes := s.lines.tail

def lastByte (s : IStream) : UInt8 := s.data.getD (s.data.length - 1) 0

/-- The size and the header pass all checks. -/
structure Accepted (s : IStream) (required : List Bytes) : Prop where
  size : s.data.length ≤ MAX_CSV_CONTENT_SIZE
  nodup : (getlines comma s.header).Nodup
  closed : endsOpen comma s.header = false
  required : ∀ name ∈ required, name ∈ getlines comma s.header

end IStream

variable {s : IStream} {required : List Bytes} {r : Except CsvException Unit × Table}

/-- On a last byte that is zero the loop stays for ever. -/
theorem lastNonZero_of_zero {data : Bytes} {pos : ℕ} (h : data.getD pos 0 = 0) (hpos : 0 < pos)
    (fuel : ℕ) : lastNonZero data fuel 0 pos = none := by
  induction fuel with
  | zero => rfl
  | succ fuel ih => rw [lastNonZero, if_pos ⟨rfl, hpos⟩, h, ih]

theorem exists_lastNonZero {data : Bytes} {pos : ℕ} (hpos : 0 < pos) {last : UInt8} :
    (∃ fuel, lastNonZero data fuel 0 pos = some last) ↔
      data.getD pos 0 ≠ 0 ∧ data.getD pos 0 = last := by
  by_cases h : data.getD pos 0 = 0
  · constructor
    · rintro ⟨fuel, hfuel⟩
      rw [lastNonZero_of_zero h hpos] at hfuel
      exact absurd hfuel (by simp)
    · exact fun hand => absurd h hand.1
  · have hread (fuel : ℕ) : lastNonZero data (fuel + 2) 0 pos = some (data.getD pos 0) := by
      rw [lastNonZero, if_pos ⟨rfl, hpos⟩, lastNonZero, if_neg (fun hand => h hand.1)]
    constructor
    · rintro ⟨fuel, hfuel⟩
      match fuel with
      | 0 => exact absurd hfuel (by simp [lastNonZero])
      | 1 => exact absurd hfuel (by simp [lastNonZero, hpos])
      | fuel + 2 =>
        rw [hread] at hfuel
        exact ⟨h, Option.some.inj hfuel⟩
    · rintro ⟨-, hlast⟩
      exact ⟨2, by rw [hread, hlast]⟩

/-- What the parser returns with enough rounds. -/
theorem exists_parseCsv (hsize : 1 < s.data.length) :
    (∃ fuel, parseCsv fuel s required = some r) ↔
      s.lastByte ≠ 0 ∧ parseContent s required s.lastByte = r := by
  have hloop (last : UInt8) := @exists_lastNonZero s.data (s.data.length - 1) (by omega) last
  simp only [parseCsv, Option.map_eq_some_iff]
  constructor
  · rintro ⟨fuel, last, hlast, rfl⟩
    obtain ⟨hne, rfl⟩ := (hloop last).mp ⟨fuel, hlast⟩
    exact ⟨hne, rfl⟩
  · rintro ⟨hne, rfl⟩
    obtain ⟨fuel, hfuel⟩ := (hloop _).mpr ⟨hne, rfl⟩
    exact ⟨fuel, _, hfuel, rfl⟩

theorem one_lt_of_records (h : s.records ≠ []) : 1 < s.content.length := by
  unfold IStream.records IStream.lines at h
  rcases hcontent : s.content with _ | ⟨c, _ | ⟨c', cs⟩⟩
  · simp [hcontent] at h
  · rw [hcontent] at h
    by_cases hc : c = newline <;> simp [getlines, hc] at h
  · simp

theorem content_length_le (s : IStream) : s.content.length ≤ s.data.length := by
  rw [IStream.content, List.length_drop]
  exact Nat.sub_le _ _

/-- The lines are counted as they are read. -/
theorem lineCount_eq (h : s.content ≠ []) : lineCount s.content s.lastByte = s.lines.length := by
  have hpos : s.pos < s.data.length := by
    have := List.length_pos_iff.mpr h
    rw [IStream.content, List.length_drop] at this
    omega
  have hlast : s.content.getLast? = some s.lastByte := by
    rw [IStream.content, List.getLast?_drop, if_neg (by omega), List.getLast?_eq_getElem?,
      IStream.lastByte, List.getD_eq_getElem?_getD, List.getElem?_eq_getElem (by omega)]
    rfl
  rw [lineCount, IStream.lines, length_getlines, endsOpen, hlast, Option.all_some]
  by_cases hc : s.lastByte = newline <;> simp [hc]

theorem parseContent_eq (h : s.records ≠ []) :
    parseContent s required s.lastByte =
      if MAX_CSV_CONTENT_SIZE < s.data.length then (.error .tooLarge, Table.cleared.getRow 0)
      else parseLines s.lines.length required s.header s.records := by
  have hlong := one_lt_of_records h
  have hle := content_length_le s
  have hlines : 2 ≤ s.lines.length := by
    have hpos := List.length_pos_iff.mpr h
    rw [IStream.records, List.length_tail] at hpos
    omega
  rw [parseContent, lineCount_eq (List.length_pos_iff.mp (by omega))]
  split_ifs with hlarge hfew
  · rfl
  · omega
  · rfl

/-- Behind an accepted header the records are read. -/
theorem parseLines_accepted (count : ℕ) {line : Bytes} (lines : List Bytes)
    (hnodup : (getlines comma line).Nodup) (hclosed : endsOpen comma line = false)
    (hrequired : ∀ name ∈ required, name ∈ getlines comma line) :
    ∃ t, HeaderRead (getlines comma line) t ∧
      parseLines count required line lines = parseRecords count lines 1 0 t := by
  have hheader := headerRead_cleared.parseHeader_spec List.nodup_nil (getlines comma line)
  rw [List.nil_append, if_pos hnodup] at hheader
  obtain ⟨t, hrun, ht⟩ := hheader
  have hne : getlines comma line ≠ [] := by
    rw [ne_eq, getlines_eq_nil]
    rintro rfl
    simp [endsOpen] at hclosed
  have hsize : t.size ≠ 0 := by
    rw [ht.size]
    exact mt List.length_eq_zero_iff.mp hne
  have hfound : ∀ name ∈ required, ∃ column ∈ t.columns, t.map 0 column = some name := by
    intro name hname
    obtain ⟨column, hcolumn, rfl⟩ := List.getElem_of_mem (hrequired name hname)
    refine ⟨column, ?_, ?_⟩
    · rw [ht.columns]
      exact Finset.mem_range.mpr hcolumn
    · simp [ht.map, hcolumn]
  refine ⟨t, ht, ?_⟩
  simp only [parseLines, hrun, hclosed, Bool.false_eq_true, if_false, if_neg hsize, if_pos hfound]

theorem parseLines_refused {count : ℕ} {line : Bytes} {lines : List Bytes}
    (h : ¬ ((getlines comma line).Nodup ∧ endsOpen comma line = false ∧
      ∀ name ∈ required, name ∈ getlines comma line)) :
    ∃ e, (parseLines count required line lines).1 = .error e := by
  have hheader := headerRead_cleared.parseHeader_spec List.nodup_nil (getlines comma line)
  rw [List.nil_append] at hheader
  unfold parseLines
  split_ifs at hheader with hnodup
  · obtain ⟨t, hrun, ht⟩ := hheader
    simp only [hrun]
    split_ifs with hopen hempty hfound
    · exact ⟨_, rfl⟩
    · exact ⟨_, rfl⟩
    · refine absurd ⟨hnodup, Bool.eq_false_iff.mpr hopen, fun name hname => ?_⟩ h
      obtain ⟨column, -, hcell⟩ := hfound name hname
      simp only [ht.map, if_true] at hcell
      exact List.mem_of_getElem? hcell
    · exact ⟨_, rfl⟩
  · obtain ⟨token, t, hrun⟩ := hheader
    simp only [hrun]
    exact ⟨_, rfl⟩

/-- The number of fields of a line, an empty one at its end included. -/
def fieldCount (line : Bytes) : ℕ := line.count comma + 1

/-- Some record has more fields than the header. -/
def Overlong (s : IStream) : Prop := ∃ record ∈ s.records, fieldCount s.header < fieldCount record

def Throws (s : IStream) (required : List Bytes) : Prop :=
  ∃ fuel e t, parseCsv fuel s required = some (.error e, t)

/-- The last byte is not zero, and the content is refused for its size or header, or has more
tokens in all records than in the header. -/
def RefusedOrFull (s : IStream) (required : List Bytes) : Prop :=
  s.lastByte ≠ 0 ∧
    (s.Accepted required → (getlines comma s.header).length < tokenCount s.records)

theorem throws_iff (h : s.records ≠ []) : Throws s required ↔ RefusedOrFull s required := by
  have hsize := one_lt_of_records h
  have hle := content_length_le s
  have hthrows : Throws s required ↔
      s.lastByte ≠ 0 ∧ ∃ e, (parseContent s required s.lastByte).1 = .error e := by
    constructor
    · rintro ⟨fuel, e, t, hrun⟩
      obtain ⟨hne, hcontent⟩ := (exists_parseCsv (by omega)).mp ⟨fuel, hrun⟩
      exact ⟨hne, e, by rw [hcontent]⟩
    · rintro ⟨hne, e, he⟩
      obtain ⟨fuel, hrun⟩ := (exists_parseCsv (by omega)).mpr ⟨hne, rfl⟩
      exact ⟨fuel, e, (parseContent s required s.lastByte).2, by rw [hrun, ← he]⟩
  rw [hthrows, RefusedOrFull, parseContent_eq h]
  refine and_congr_right fun _ => ?_
  split_ifs with hlarge
  · exact ⟨fun _ haccepted => absurd haccepted.size (by omega), fun _ => ⟨_, rfl⟩⟩
  · by_cases hheader : (getlines comma s.header).Nodup ∧ endsOpen comma s.header = false ∧
        ∀ name ∈ required, name ∈ getlines comma s.header
    · obtain ⟨hnodup, hclosed, hrequired⟩ := hheader
      obtain ⟨t, ht, hrun⟩ := parseLines_accepted s.lines.length s.records hnodup hclosed
        hrequired
      have hne : 0 < (getlines comma s.header).length := by
        rw [List.length_pos_iff, ne_eq, getlines_eq_nil]
        intro hnil
        simp [hnil, endsOpen] at hclosed
      have hlines : 1 + s.records.length ≤ s.lines.length := by
        have hpos := List.length_pos_iff.mpr h
        rw [IStream.records, List.length_tail] at hpos ⊢
        omega
      rw [hrun, parseRecords_spec ht.columns hne (Nat.zero_le _) hlines, Nat.zero_add]
      have haccepted : s.Accepted required := ⟨by omega, hnodup, hclosed, hrequired⟩
      split_ifs with hfit
      · simp only [exists_false, false_iff]
        exact fun hfull => absurd (hfull haccepted) (by omega)
      · exact ⟨fun _ _ => by omega, fun _ => ⟨_, rfl⟩⟩
    · refine ⟨fun _ haccepted => ?_, fun _ => parseLines_refused hheader⟩
      exact absurd ⟨haccepted.nodup, haccepted.closed, haccepted.required⟩ hheader

/-! ### Written tables -/

structure Field (f : Bytes) : Prop where
  nonempty : f ≠ []
  comma : comma ∉ f
  newline : newline ∉ f
  nonzero : 0 ∉ f

instance (f : Bytes) : Decidable (Field f) :=
  decidable_of_iff (f ≠ [] ∧ comma ∉ f ∧ newline ∉ f ∧ 0 ∉ f)
    ⟨fun ⟨hne, hc, hn, h0⟩ => ⟨hne, hc, hn, h0⟩,
      fun h => ⟨h.nonempty, h.comma, h.newline, h.nonzero⟩⟩

/-- A table to be written as CSV. -/
structure Document where
  header : List Bytes
  records : List (List Bytes)
  nodup : header.Nodup
  header_ne : header ≠ []
  names : ∀ name ∈ header, Field name
  records_ne : records ≠ []
  length_eq : ∀ record ∈ records, record.length = header.length
  fields : ∀ record ∈ records, ∀ f ∈ record, Field f

def written (fields : List Bytes) : Bytes := [comma].intercalate fields

/-- The fields of one line. -/
structure Row (fields : List Bytes) : Prop where
  nonempty : fields ≠ []
  fields : ∀ f ∈ fields, Field f

namespace Row

variable {fields : List Bytes}

theorem getlines_written (h : Row fields) : getlines comma (written fields) = fields :=
  getlines_intercalate (fun f hf => (h.fields f hf).comma) h.nonempty
    (h.fields _ (List.getLast_mem h.nonempty)).nonempty

theorem endsOpen_written (h : Row fields) : endsOpen comma (written fields) = false :=
  endsOpen_intercalate (fun f hf => (h.fields f hf).comma) h.nonempty
    (h.fields _ (List.getLast_mem h.nonempty)).nonempty

theorem written_ne (h : Row fields) : written fields ≠ [] := by
  intro hnil
  have hread := h.getlines_written
  rw [hnil, getlines_nil] at hread
  exact h.nonempty hread.symm

theorem newline_notMem (h : Row fields) : newline ∉ written fields := by
  intro hmem
  rcases mem_intercalate hmem with heq | ⟨f, hf, hin⟩
  · exact absurd heq (by decide)
  · exact (h.fields f hf).newline hin

theorem zero_notMem (h : Row fields) : 0 ∉ written fields := by
  intro hmem
  rcases mem_intercalate hmem with heq | ⟨f, hf, hin⟩
  · exact absurd heq (by decide)
  · exact (h.fields f hf).nonzero hin

end Row

namespace Document

variable (d : Document)

def rows : List (List Bytes) := d.header :: d.records

/-- Lines between newlines, with or without a final one. -/
def text (final : Bool) : Bytes :=
  [newline].intercalate (d.rows.map written) ++ if final then [newline] else []

theorem row {d : Document} {fields : List Bytes} (h : fields ∈ d.rows) : Row fields := by
  rcases List.mem_cons.mp h with rfl | h
  · exact ⟨d.header_ne, d.names⟩
  · refine ⟨fun hnil => d.header_ne ?_, d.fields _ h⟩
    rw [← List.length_eq_zero_iff, ← d.length_eq _ h, hnil, List.length_nil]

theorem getlines_text (final : Bool) : getlines newline (d.text final) = d.rows.map written := by
  have hclean : ∀ line ∈ d.rows.map written, newline ∉ line := by
    intro line hline
    obtain ⟨fields, hfields, rfl⟩ := List.mem_map.mp hline
    exact (row hfields).newline_notMem
  have hne : d.rows.map written ≠ [] := by simp [rows]
  cases final with
  | true => exact getlines_intercalate_append hclean hne
  | false =>
    obtain ⟨fields, hfields, hlast⟩ := List.mem_map.mp (List.getLast_mem hne)
    rw [text, if_neg (by decide), List.append_nil]
    exact getlines_intercalate hclean hne (by rw [← hlast]; exact (row hfields).written_ne)

theorem zero_notMem_text (final : Bool) : 0 ∉ d.text final := by
  intro hmem
  rcases List.mem_append.mp hmem with hmem | hmem
  · rcases mem_intercalate hmem with heq | ⟨line, hline, hin⟩
    · exact absurd heq (by decide)
    · obtain ⟨fields, hfields, rfl⟩ := List.mem_map.mp hline
      exact (row hfields).zero_notMem hin
  · cases final
    · simp at hmem
    · exact absurd hmem (by decide)

/-- The stream of the table, read from behind what stands before it. -/
def stream (before : Bytes) (final : Bool) : IStream := ⟨before ++ d.text final, before.length⟩

variable (before : Bytes) (final : Bool)

theorem content_stream : (d.stream before final).content = d.text final := by
  simp [stream, IStream.content]

theorem header_stream : (d.stream before final).header = written d.header := by
  rw [IStream.header, IStream.lines, content_stream, getlines_text]
  rfl

theorem records_stream : (d.stream before final).records = d.records.map written := by
  rw [IStream.records, IStream.lines, content_stream, getlines_text]
  rfl

theorem lines_stream : (d.stream before final).lines = d.rows.map written := by
  rw [IStream.lines, content_stream, getlines_text]

theorem tokenCount_stream :
    tokenCount (d.stream before final).records = d.records.length * d.header.length := by
  rw [records_stream, tokenCount, List.map_map]
  have hlength : ∀ record ∈ d.records, ((fun line => (getlines comma line).length) ∘ written)
      record = d.header.length := by
    intro record hrecord
    rw [Function.comp_apply, (row (List.mem_cons_of_mem _ hrecord)).getlines_written,
      d.length_eq record hrecord]
  rw [List.map_congr_left hlength, List.map_const', List.sum_replicate_nat]

theorem lastByte_ne_zero : (d.stream before final).lastByte ≠ 0 := by
  have hne : d.text final ≠ [] := by
    intro hnil
    have hlines := d.getlines_text final
    rw [hnil, getlines_nil] at hlines
    simp [rows] at hlines
  have hlast : (d.stream before final).lastByte = (d.text final).getLast hne := by
    have hget : (before ++ d.text final).getLast? = some ((d.text final).getLast hne) := by
      rw [List.getLast?_append, List.getLast?_eq_some_getLast hne, Option.some_or]
    rw [List.getLast?_eq_getElem?] at hget
    rw [IStream.lastByte, stream, List.getD_eq_getElem?_getD, hget, Option.getD_some]
  rw [hlast]
  exact fun hzero => d.zero_notMem_text final (hzero ▸ List.getLast_mem hne)

/-- Row 0 is the header, and the rows behind it are the records. -/
structure ParsedInto (t : Table) : Prop where
  rows : t.rows = Finset.range (d.records.length + 1)
  columns : t.columns = Finset.range d.header.length
  header : ∀ j, t.map 0 j = d.header[j]?
  cells : ∀ i j, t.map (i + 1) j = d.records[i]?.bind fun record => record[j]?

/-- The table is read back from its text. -/
def ReadBack (required : List Bytes) : Prop :=
  ∃ fuel t, parseCsv fuel (d.stream before final) required = some (.ok (), t) ∧ d.ParsedInto t

theorem accepted_stream (hreq : ∀ name ∈ required, name ∈ d.header)
    (hsize : (before ++ d.text final).length ≤ MAX_CSV_CONTENT_SIZE) :
    (d.stream before final).Accepted required := by
  have hrow : Row d.header := row List.mem_cons_self
  constructor
  · exact hsize
  · rw [header_stream, hrow.getlines_written]
    exact d.nodup
  · rw [header_stream]
    exact hrow.endsOpen_written
  · rw [header_stream, hrow.getlines_written]
    exact hreq

/-- One record is read back: its tokens start at index 0. -/
theorem parseRecords_single {record : List Bytes} (hrecords : d.records = [record]) {t : Table}
    (ht : HeaderRead d.header t) :
    ∃ t', parseRecords 2 [written record] 1 0 t = (.ok (), t') ∧ d.ParsedInto t' := by
  have hmem : record ∈ d.records := by simp [hrecords]
  have hrow : Row record := row (List.mem_cons_of_mem _ hmem)
  have hlength := d.length_eq record hmem
  have hspec := @parseTokens_spec _ 1 record 0 t ht.columns (Nat.zero_le _)
  rw [if_pos (by omega)] at hspec
  obtain ⟨t', hrun, hcols, hrows, hmap⟩ := hspec
  refine ⟨t', ?_, ?_, hcols, ?_, ?_⟩
  · simp [parseRecords, hrow.getlines_written, hrow.endsOpen_written, hrun]
  · rw [hrows, if_neg hrow.nonempty, ht.rows, hrecords]
    change insert 1 {0} = Finset.range 2
    decide
  · intro j
    simp [hmap, ht.map]
  · intro i j
    rw [hmap, hrecords]
    cases i with
    | zero =>
      by_cases hj : j < record.length
      · simp [hj]
      · simp [hj, ht.map]
    | succ i => simp [ht.map]

/-- A table is read back exactly when it has one record. -/
theorem readBack_iff (hreq : ∀ name ∈ required, name ∈ d.header)
    (hsize : (before ++ d.text final).length ≤ MAX_CSV_CONTENT_SIZE) :
    d.ReadBack before final required ↔ d.records.length = 1 := by
  have hne : (d.stream before final).records ≠ [] := by
    rw [records_stream]
    exact mt List.map_eq_nil_iff.mp d.records_ne
  have hrow : Row d.header := row List.mem_cons_self
  have haccepted := d.accepted_stream before final hreq hsize
  have hlong := one_lt_of_records hne
  have hle := content_length_le (d.stream before final)
  constructor
  · rintro ⟨fuel, t, hrun, -⟩
    by_contra hmany
    -- a second record finds the token index at the end of the header
    have hfull : RefusedOrFull (d.stream before final) required := by
      refine ⟨d.lastByte_ne_zero before final, fun _ => ?_⟩
      have hpos := List.length_pos_iff.mpr d.header_ne
      have hrecords := List.length_pos_iff.mpr d.records_ne
      have htwo : 1 < d.records.length := by omega
      rw [tokenCount_stream, header_stream, hrow.getlines_written]
      exact (Nat.lt_mul_iff_one_lt_left hpos).mpr htwo
    obtain ⟨fuel', e, t', hthrow⟩ := (throws_iff hne).mpr hfull
    have hok := (exists_parseCsv (by omega)).mp ⟨fuel, hrun⟩
    have herr := (exists_parseCsv (by omega)).mp ⟨fuel', hthrow⟩
    rw [hok.2] at herr
    exact absurd (congrArg Prod.fst herr.2) (by simp)
  · intro hone
    obtain ⟨record, hrecord⟩ := List.length_eq_one_iff.mp hone
    obtain ⟨t, ht, hlines⟩ := parseLines_accepted (d.stream before final).lines.length
      (d.stream before final).records haccepted.nodup haccepted.closed haccepted.required
    rw [header_stream, hrow.getlines_written] at ht
    obtain ⟨t', hrun, hparsed⟩ := d.parseRecords_single hrecord ht
    have hcontent : parseContent (d.stream before final) required
        (d.stream before final).lastByte = (.ok (), t') := by
      rw [parseContent_eq hne, if_neg (not_lt.mpr haccepted.size), hlines, lines_stream,
        records_stream, ← hrun, rows, hrecord]
      rfl
    obtain ⟨fuel, hfuel⟩ := (exists_parseCsv (by omega)).mpr
      ⟨d.lastByte_ne_zero before final, hcontent⟩
    exact ⟨fuel, t', hfuel, hparsed⟩

end Document

/-- A written table is read back exactly when it has one record. A content with an overlong record
throws exactly when it does not end with a zero and is refused for its size or header, or has more
tokens in all its records than in its header; its size must be one of an `int`. -/
theorem parseCsv_iff (required : List Bytes) :
    (∀ (d : Document) (before : Bytes) (final : Bool),
      (∀ name ∈ required, name ∈ d.header) →
      (before ++ d.text final).length ≤ MAX_CSV_CONTENT_SIZE →
      (d.ReadBack before final required ↔ d.records.length = 1)) ∧
    ∀ s : IStream, s.data.length < 2 ^ 31 → Overlong s →
      (Throws s required ↔ RefusedOrFull s required) := by
  refine ⟨fun d before final hreq hsize => d.readBack_iff before final hreq hsize, ?_⟩
  rintro s - ⟨record, hrecord, -⟩
  exact throws_iff (List.ne_nil_of_mem hrecord)

/-- The table `a,b` with the record `1,2`. -/
def smallDocument : Document where
  header := [[97], [98]]
  records := [[[49], [50]]]
  nodup := by decide
  header_ne := by decide
  names := by decide
  records_ne := by decide
  length_eq := by decide
  fields := by decide

theorem parseCsv_iff_small :
    (smallDocument.ReadBack [] true [[98]] ↔ smallDocument.records.length = 1) ∧
      (Throws (.ofString [97, 10, 49, 44, 50]) [] ↔
        RefusedOrFull (.ofString [97, 10, 49, 44, 50]) []) :=
  ⟨(parseCsv_iff [[98]]).1 smallDocument [] true (by decide) (by decide),
    (parseCsv_iff []).2 (.ofString [97, 10, 49, 44, 50]) (by decide)
      ⟨[49, 44, 50], by decide, by decide⟩⟩

/-- The table `a` with the records `1` and `2`. -/
def twoRecords : Document where
  header := [[97]]
  records := [[[49]], [[50]]]
  nodup := by decide
  header_ne := by decide
  names := by decide
  records_ne := by decide
  length_eq := by decide
  fields := by decide

/-- The second record of a table is taken for one without a header, and a record with one empty
field too many passes. -/
theorem second_record_throws :
    (¬ twoRecords.ReadBack [] true [] ∧
      (parseCsv 2 (twoRecords.stream [] true) []).map Prod.fst =
        some (.error .recordWithoutHeader)) ∧
    Overlong (.ofString [97, 10, 49, 44]) ∧ ¬ Throws (.ofString [97, 10, 49, 44]) [] := by
  refine ⟨⟨?_, by decide⟩, ⟨[49, 44], by decide, by decide⟩, ?_⟩
  · rw [twoRecords.readBack_iff [] true (by decide) (by decide)]
    decide
  · rw [throws_iff (by decide)]
    rintro ⟨-, hfull⟩
    exact absurd (hfull ⟨by decide, by decide, by decide, by decide⟩) (by decide)

end Octf.Utils
