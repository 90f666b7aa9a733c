import Octf.Extension.Printout
import Mathlib.Order.Bounds.Basic

/-! What the printed lines show: the results of their ids, and in the first line of a CSV printout
also the prototypes that the header has left in the message. -/
namespace Octf.Extension
open Foundation

variable {R : Type}

/-- A result is among the rows. -/
def Recorded (rows : List (Row (Option R))) (sid : ℕ) (name : String) (r : R) : Prop :=
  ∃ row ∈ rows, row.sid = sid ∧ row.name = name ∧ row.ext = some r

theorem recorded_cons {row : Row (Option R)} {rows : List (Row (Option R))} {sid : ℕ}
    {name : String} {r : R} : Recorded (row :: rows) sid name r ↔
      (row.sid = sid ∧ row.name = name ∧ row.ext = some r) ∨ Recorded rows sid name r := by
  unfold Recorded
  rw [List.exists_mem_cons_iff]

@[simp] theorem Line.clear_result (name : String) : (Line.clear : Line R).result name = none := rfl

@[simp] theorem Line.fill_sid (name : String) (sid : ℕ) (feature : Option R) (msg : Line R) :
    (msg.fill name sid feature).sid = sid := by
  unfold Line.fill Line.setFeature
  split_ifs <;> rfl

/-- A result that has been read replaces what the message holds under its name. -/
theorem Line.fill_result (name other : String) (sid : ℕ) (feature : Option R) (msg : Line R) :
    (msg.fill name sid feature).result other =
      if name = other then feature.or (msg.result other) else msg.result other := by
  unfold Line.fill Line.setFeature Line.result
  cases feature with
  | none => simp
  | some r =>
    by_cases hname : name = other
    · subst hname
      simp
    · simp [hname, Function.update_of_ne (Ne.symm hname)]

/-- The rows come in the order of their ids, the names within one id differ, and every id is
announced. -/
structure Ordered (rows : List (Row (Option R))) : Prop where
  keys : rows.Pairwise fun a b => a.key < b.key
  announced : ∀ row ∈ rows, row.announced = row.sid

theorem Ordered.tail {row : Row (Option R)} {rows : List (Row (Option R))}
    (h : Ordered (row :: rows)) : Ordered rows :=
  ⟨(List.pairwise_cons.mp h.keys).2, fun next hnext => h.announced next (.tail row hnext)⟩

theorem Ordered.cons_iff {row : Row (Option R)} {rows : List (Row (Option R))}
    (h : Ordered (row :: rows)) : ∀ next ∈ rows,
      row.sid < next.sid ∨ row.sid = next.sid ∧ row.name ≠ next.name := by
  intro next hnext
  have hkey := (List.pairwise_cons.mp h.keys).1 next hnext
  rw [Row.key, Row.key, Prod.Lex.toLex_lt_toLex] at hkey
  exact hkey.imp_right fun hname => ⟨hname.1, hname.2.ne⟩

/-- It is time to print when no further row has the id. -/
theorem Ordered.time_iff {row : Row (Option R)} {rows : List (Row (Option R))}
    (h : Ordered (row :: rows)) :
    rows.head?.all (fun next => decide (next.announced ≠ row.sid)) = true ↔
      ∀ next ∈ rows, row.sid < next.sid := by
  cases rows with
  | nil => simp
  | cons first rows =>
    have hfirst := h.cons_iff first List.mem_cons_self
    have hannounced := h.announced first (.tail row List.mem_cons_self)
    have hrest : ∀ next ∈ first :: rows, first.sid ≤ next.sid := by
      intro next hnext
      rcases List.mem_cons.mp hnext with rfl | hnext
      · exact le_rfl
      · rcases h.tail.cons_iff next hnext with hlt | heq
        · exact hlt.le
        · exact heq.1.le
    simp only [List.head?_cons, Option.all_some, decide_eq_true_eq, hannounced]
    constructor
    · intro hne next hnext
      have hle := hrest next hnext
      omega
    · intro hless
      exact (hless first List.mem_cons_self).ne'

/-- The lines behind a message that has been filled before. -/
structure LinesShow (msg : Line R) (rows : List (Row (Option R))) (lines : List (Line R)) :
    Prop where
  ascending : (lines.map Line.sid).Pairwise (· < ·)
  sids : ∀ sid, sid ∈ lines.map Line.sid ↔ ∃ row ∈ rows, row.sid = sid
  results : ∀ line ∈ lines, ∀ name r, line.result name = some r ↔
    Recorded rows line.sid name r ∨ rows.head?.map Row.sid = some line.sid ∧
      msg.result name = some r ∧ ∀ r', ¬ Recorded rows line.sid name r'

/-- The last row of an id completes its line. -/
theorem LinesShow.print {msg : Line R} {row : Row (Option R)} {rows : List (Row (Option R))}
    {lines : List (Line R)} (hless : ∀ next ∈ rows, row.sid < next.sid)
    (h : LinesShow .clear rows lines) :
    LinesShow msg (row :: rows) (msg.fill row.name row.sid row.ext :: lines) := by
  have hlines : ∀ line ∈ lines, row.sid < line.sid := by
    intro line hline
    obtain ⟨next, hnext, hsid⟩ := (h.sids line.sid).mp (List.mem_map_of_mem hline)
    exact hsid ▸ hless next hnext
  have hnone : ∀ name r, ¬ Recorded rows row.sid name r := by
    rintro name r ⟨next, hnext, hsid, -⟩
    exact (hless next hnext).ne' hsid
  refine ⟨?_, ?_, ?_⟩
  · rw [List.map_cons, List.pairwise_cons, Line.fill_sid]
    refine ⟨fun sid hsid => ?_, h.ascending⟩
    obtain ⟨line, hline, rfl⟩ := List.mem_map.mp hsid
    exact hlines line hline
  · intro sid
    rw [List.map_cons, List.mem_cons, Line.fill_sid, h.sids, List.exists_mem_cons_iff,
      eq_comm]
  · intro line hline name r
    rcases List.mem_cons.mp hline with rfl | hline
    · rw [Line.fill_sid, Line.fill_result]
      simp only [recorded_cons, hnone, or_false, List.head?_cons, Option.map_some, true_and]
      split_ifs with hname
      · cases row.ext <;> simp [hname]
      · simp [hname]
    · have hne : row.sid ≠ line.sid := (hlines line hline).ne
      have hresult := h.results line hline name r
      simpa [recorded_cons, hne] using hresult

/-- Behind a row, the id has another row. -/
theorem LinesShow.fill {msg : Line R} {row : Row (Option R)} {rows : List (Row (Option R))}
    {lines : List (Line R)} (hrows : Ordered (row :: rows))
    (hmore : ¬ ∀ next ∈ rows, row.sid < next.sid)
    (h : LinesShow (msg.fill row.name row.sid row.ext) rows lines) :
    LinesShow msg (row :: rows) lines := by
  obtain ⟨first, hfirst, hsame⟩ : ∃ first ∈ rows.head?, first.sid = row.sid := by
    cases rows with
    | nil => simp at hmore
    | cons first rows =>
      have htime := mt hrows.time_iff.mp hmore
      have hannounced := hrows.announced first (.tail row List.mem_cons_self)
      exact ⟨first, rfl, by simpa [hannounced] using htime⟩
  have hhead : rows.head?.map Row.sid = some row.sid := by rw [hfirst, Option.map_some, hsame]
  refine ⟨h.ascending, ?_, ?_⟩
  · intro sid
    rw [h.sids, List.exists_mem_cons_iff]
    refine ⟨Or.inr, fun hsid => hsid.elim (fun heq => ?_) id⟩
    exact ⟨first, List.mem_of_mem_head? hfirst, hsame.trans heq⟩
  · intro line hline name r
    rw [h.results line hline name r, hhead]
    simp only [recorded_cons, List.head?_cons, Option.map_some, Line.fill_result]
    by_cases hrow : row.sid = line.sid ∧ row.name = name
    · obtain ⟨hsid, hname⟩ := hrow
      -- the names within the id differ, so no later row has this result
      have hnone : ∀ r', ¬ Recorded rows line.sid name r' := by
        rintro r' ⟨next, hnext, hsid', hname', -⟩
        rcases hrows.cons_iff next hnext with hlt | ⟨-, hne⟩
        · omega
        · exact hne (hname.trans hname'.symm)
      simp only [hsid, hname, hnone, if_true, true_and, or_false, false_or]
      cases row.ext <;> simp
    · by_cases hname : row.name = name
      · have hsid : row.sid ≠ line.sid := fun hsid => hrow ⟨hsid, hname⟩
        simp [hsid]
      · simp [hname]

/-- Every id has its line, and the line shows what is recorded. -/
theorem linesOf_show {rows : List (Row (Option R))} (hrows : Ordered rows) (msg : Line R) :
    LinesShow msg rows (linesOf msg rows) := by
  induction rows generalizing msg with
  | nil => exact ⟨List.Pairwise.nil, by simp [linesOf], by simp [linesOf]⟩
  | cons row rows ih =>
    unfold linesOf
    dsimp only
    split_ifs with htime
    · exact (ih hrows.tail .clear).print (hrows.time_iff.mp htime)
    · exact (ih hrows.tail _).fill hrows (mt hrows.time_iff.mpr htime)

/-! ### The printout of built extensions -/

/-- The ids for which an extension has a record. -/
def sids (handlers : List (Handler R)) : Set ℕ :=
  {sid | ∃ hndlr ∈ handlers, ∃ ext, (sid, ext) ∈ hndlr.ext.records}

/-- One line for each id, in ascending order, with the results recorded for it and no others. -/
structure Printed (handlers : List (Handler R)) (lines : List (Line R)) : Prop where
  ascending : (lines.map Line.sid).Pairwise (· < ·)
  complete : ∀ sid, sid ∈ lines.map Line.sid ↔ sid ∈ sids handlers
  results : ∀ line ∈ lines, ∀ name r, line.result name = some r ↔
    ∃ hndlr ∈ handlers, hndlr.ext.name = name ∧ (line.sid, some r) ∈ hndlr.ext.records

/-- Every prototype is replaced in the line of the first id. -/
def Covered (handlers : List (Handler R)) : Prop :=
  ∀ sid, IsLeast (sids handlers) sid → ∀ hndlr ∈ handlers, hndlr.prototype.isSome →
    ∃ r, (sid, some r) ∈ hndlr.ext.records

variable {handlers : List (Handler R)} {rows : List (Row (Option R))}

section Rows
variable (h : MergedFiles (handlers.map Handler.ext) rows)
include h

theorem mem_rows_iff {row : Row (Option R)} : row ∈ rows ↔
    ∃ hndlr ∈ handlers, row ∈ hndlr.ext.rows := by
  constructor
  · intro hrow
    obtain ⟨b, hb, hmem⟩ := h.only row hrow
    obtain ⟨hndlr, hhndlr, rfl⟩ := List.mem_map.mp hb
    exact ⟨hndlr, hhndlr, hmem⟩
  · rintro ⟨hndlr, hhndlr, hmem⟩
    rw [← h.own hndlr.ext (List.mem_map_of_mem hhndlr)] at hmem
    exact List.mem_of_mem_filter hmem

theorem recorded_iff {sid : ℕ} {name : String} {r : R} : Recorded rows sid name r ↔
    ∃ hndlr ∈ handlers, hndlr.ext.name = name ∧ (sid, some r) ∈ hndlr.ext.records := by
  constructor
  · rintro ⟨row, hrow, rfl, rfl, hext⟩
    obtain ⟨hndlr, hhndlr, hmem⟩ := (mem_rows_iff h).mp hrow
    obtain ⟨record, hrecord, rfl⟩ := List.mem_map.mp hmem
    obtain ⟨sid, ext⟩ := record
    obtain rfl : ext = some r := hext
    exact ⟨hndlr, hhndlr, rfl, hrecord⟩
  · rintro ⟨hndlr, hhndlr, rfl, hrecord⟩
    exact ⟨_, (mem_rows_iff h).mpr ⟨hndlr, hhndlr, List.mem_map_of_mem hrecord⟩, rfl, rfl, rfl⟩

theorem mem_sids_iff {sid : ℕ} : sid ∈ sids handlers ↔ ∃ row ∈ rows, row.sid = sid := by
  constructor
  · rintro ⟨hndlr, hhndlr, ext, hrecord⟩
    exact ⟨_, (mem_rows_iff h).mpr ⟨hndlr, hhndlr, List.mem_map_of_mem hrecord⟩, rfl⟩
  · rintro ⟨row, hrow, rfl⟩
    obtain ⟨hndlr, hhndlr, hmem⟩ := (mem_rows_iff h).mp hrow
    obtain ⟨record, hrecord, rfl⟩ := List.mem_map.mp hmem
    exact ⟨hndlr, hhndlr, record.2, hrecord⟩

/-- With one record at most per id and extension, no two rows share their key. -/
theorem ordered_of_merged
    (hsids : ∀ hndlr ∈ handlers, (hndlr.ext.records.map Prod.fst).Nodup) : Ordered rows := by
  have hne : rows.Pairwise fun a b => a.key ≠ b.key := by
    rw [List.pairwise_iff_forall_sublist]
    intro a b hab heq
    obtain ⟨hsid, hname⟩ := Prod.mk.inj (toLex.injective heq)
    obtain ⟨hndlr, hhndlr, hmem⟩ := (mem_rows_iff h).mp (hab.subset List.mem_cons_self)
    obtain ⟨record, -, rfl⟩ := List.mem_map.mp hmem
    have hfilter := hab.filter fun row => decide (row.name = hndlr.ext.name)
    rw [h.own hndlr.ext (List.mem_map_of_mem hhndlr), List.filter_cons_of_pos (by simp),
      List.filter_cons_of_pos (by simpa using hname.symm), List.filter_nil] at hfilter
    have hnodup : (hndlr.ext.rows.map Row.sid).Nodup := by
      simpa [Built.rows, Function.comp_def] using hsids hndlr hhndlr
    exact List.pairwise_iff_forall_sublist.mp (List.pairwise_map.mp hnodup) hfilter hsid
  exact ⟨(h.ordered.and hne).imp fun hboth => lt_of_le_of_ne hboth.1 hboth.2, h.announced⟩

/-- The first row has the least id. -/
theorem head_isLeast (hrows : Ordered rows) {sid : ℕ} :
    rows.head?.map Row.sid = some sid ↔ IsLeast (sids handlers) sid := by
  cases rows with
  | nil =>
    refine iff_of_false (by simp) fun hleast => ?_
    obtain ⟨row, hrow, -⟩ := (mem_sids_iff h).mp hleast.1
    cases hrow
  | cons first rows =>
    have hfirst : IsLeast (sids handlers) first.sid := by
      refine ⟨(mem_sids_iff h).mpr ⟨first, List.mem_cons_self, rfl⟩, fun sid hsid => ?_⟩
      obtain ⟨row, hrow, rfl⟩ := (mem_sids_iff h).mp hsid
      rcases List.mem_cons.mp hrow with rfl | hrow
      · exact le_rfl
      · exact (hrows.cons_iff row hrow).elim le_of_lt fun heq => heq.1.le
    rw [List.head?_cons, Option.map_some, Option.some_inj]
    exact ⟨fun heq => heq ▸ hfirst, fun hleast => hfirst.unique hleast⟩

end Rows

/-- The message behind a CSV header shows the prototypes. -/
theorem headerMessage_result (hnames : (handlers.map fun hndlr => hndlr.ext.name).Nodup)
    {name : String} {r : R} : (headerMessage .CSV handlers).result name = some r ↔
      ∃ hndlr ∈ handlers, hndlr.ext.name = name ∧ hndlr.prototype = some r := by
  suffices hfold : ∀ msg : Line R,
      ((handlers.foldl (fun msg hndlr => msg.setFeature hndlr.ext.name hndlr.prototype)
        msg).result name = some r ↔
        (∃ hndlr ∈ handlers, hndlr.ext.name = name ∧ hndlr.prototype = some r) ∨
          (∀ hndlr ∈ handlers, hndlr.ext.name ≠ name) ∧ msg.result name = some r) by
    simpa [headerMessage] using hfold .clear
  induction handlers with
  | nil => simp
  | cons hndlr handlers ih =>
    intro msg
    obtain ⟨hname, hnames'⟩ := List.nodup_cons.mp hnames
    rw [List.foldl_cons, ih hnames', List.exists_mem_cons_iff, List.forall_mem_cons]
    by_cases heq : hndlr.ext.name = name
    · have hothers : ∀ other ∈ handlers, other.ext.name ≠ name := fun other hother hsame =>
        hname (List.mem_map.mpr ⟨other, hother, hsame.trans heq.symm⟩)
      have hnone : ¬ ∃ other ∈ handlers, other.ext.name = name ∧ other.prototype = some r :=
        fun ⟨other, hother, hsame, _⟩ => hothers other hother hsame
      simp only [hnone, heq, Line.setFeature, Line.result, Function.update_self, Option.join_some]
      simpa using fun _ => hothers
    · simp [heq, Line.setFeature, Line.result, Function.update_of_ne (Ne.symm heq)]

/-- In CSV the lines are right if and only if the first line covers the prototypes. -/
theorem printed_csv_iff (hnames : (handlers.map fun hndlr => hndlr.ext.name).Nodup)
    (h : MergedFiles (handlers.map Handler.ext) rows) (hrows : Ordered rows) {lines : List (Line R)}
    (hlines : LinesShow (headerMessage .CSV handlers) rows lines) :
    Printed handlers lines ↔ Covered handlers := by
  constructor
  · intro hprinted sid hleast hndlr hhndlr hprototype
    obtain ⟨p, hp⟩ := Option.isSome_iff_exists.mp hprototype
    obtain ⟨line, hline, rfl⟩ := List.mem_map.mp ((hprinted.complete sid).mpr hleast.1)
    have hsame : ∀ other ∈ handlers, other.ext.name = hndlr.ext.name → other = hndlr :=
      fun other hother hname => List.inj_on_of_nodup_map hnames hother hhndlr hname
    have hself : ∀ r, Recorded rows line.sid hndlr.ext.name r →
        (line.sid, some r) ∈ hndlr.ext.records := by
      intro r hrecorded
      obtain ⟨other, hother, hname, hmem⟩ := (recorded_iff h).mp hrecorded
      exact hsame other hother hname ▸ hmem
    by_contra hnone
    have hresult := (hlines.results line hline hndlr.ext.name p).mpr
      (Or.inr ⟨(head_isLeast h hrows).mpr hleast,
        (headerMessage_result hnames).mpr ⟨hndlr, hhndlr, rfl, hp⟩,
        fun r' hrecorded => hnone ⟨r', hself r' hrecorded⟩⟩)
    exact hnone ⟨p, hself p ((recorded_iff h).mpr
      ((hprinted.results line hline hndlr.ext.name p).mp hresult))⟩
  · intro hcovered
    refine ⟨hlines.ascending, fun sid => (hlines.sids sid).trans (mem_sids_iff h).symm, ?_⟩
    intro line hline name r
    rw [hlines.results line hline name r, recorded_iff h]
    refine or_iff_left fun ⟨hhead, hheader, hnone⟩ => ?_
    obtain ⟨hndlr, hhndlr, rfl, hp⟩ := (headerMessage_result hnames).mp hheader
    obtain ⟨r', hr'⟩ := hcovered line.sid ((head_isLeast h hrows).mp hhead) hndlr hhndlr
      (Option.isSome_of_eq_some hp)
    exact hnone r' ((recorded_iff h).mpr ⟨hndlr, hhndlr, rfl, hr'⟩)

/-- Behind a cleared message the lines are right. -/
theorem printed_of_clear (h : MergedFiles (handlers.map Handler.ext) rows)
    {lines : List (Line R)} (hlines : LinesShow .clear rows lines) : Printed handlers lines := by
  refine ⟨hlines.ascending, fun sid => (hlines.sids sid).trans (mem_sids_iff h).symm, ?_⟩
  intro line hline name r
  rw [hlines.results line hline name r, recorded_iff h]
  exact or_iff_left fun hheader => by cases hheader.2.1

/-- The printout ends with the lines of the merged rows. -/
theorem buildExtensions_eq (handlers : List (Handler R)) (format : OutputFormat)
    (hformat : format ≠ .unknown) (hnames : (handlers.map fun hndlr => hndlr.ext.name).Nodup)
    (hsids : ∀ hndlr ∈ handlers, (hndlr.ext.records.map Prod.fst).Nodup) :
    ∃ rows, MergedFiles (handlers.map Handler.ext) rows ∧ Ordered rows ∧
      ∀ rounds, rows.length < rounds → buildExtensions rounds format handlers =
        .ok (linesOf (headerMessage format handlers) rows) := by
  have hnames' : ((handlers.map Handler.ext).map Built.name).Nodup := by
    rw [List.map_map]
    exact hnames
  obtain ⟨s, rows, hok, hreads, hmerged⟩ := reads_built (handlers.map Handler.ext) hnames'
  refine ⟨rows, hmerged, ordered_of_merged hmerged hsids, fun rounds hrounds => ?_⟩
  rw [List.map_map] at hok
  exact (congrArg (· >>= _) hok).trans (hreads.print hformat _ rounds hrounds)

/-- For extensions with distinct names and one record at most per id, the printout ends, and it is
right if and only if it is in JSON or every prototype is replaced in its first line. -/
theorem prints_results_iff (handlers : List (Handler R)) (format : OutputFormat)
    (hformat : format = .JSON ∨ format = .CSV)
    (hnames : (handlers.map fun hndlr => hndlr.ext.name).Nodup)
    (hsids : ∀ hndlr ∈ handlers, (hndlr.ext.records.map Prod.fst).Nodup) :
    ∃ lines, (∃ bound, ∀ rounds, bound < rounds →
        buildExtensions rounds format handlers = .ok lines) ∧
      (Printed handlers lines ↔ format = .JSON ∨ Covered handlers) := by
  have hknown : format ≠ .unknown := by rcases hformat with rfl | rfl <;> decide
  obtain ⟨rows, hmerged, hrows, hprint⟩ :=
    buildExtensions_eq handlers format hknown hnames hsids
  have hlines := linesOf_show hrows (headerMessage format handlers)
  refine ⟨_, ⟨rows.length, hprint⟩, ?_⟩
  rcases hformat with rfl | rfl
  · exact iff_of_true (printed_of_clear hmerged hlines) (Or.inl rfl)
  · rw [printed_csv_iff hnames hmerged hrows hlines]
    simp

/-- The LRU extensions of a trace whose first request is a flush: it has no result. -/
def flushed (name : String) : Handler Bool :=
  ⟨⟨name, [(1, none), (2, some true)], _, rfl⟩, some false⟩

def flushedHandlers : List (Handler Bool) :=
  ["LRU 5%", "LRU 10%", "LRU 15%", "LRU 20%", "LRU 50%", "LRU 100%"].map flushed

theorem prints_results_iff_flushed : ∃ lines, (∃ bound, ∀ rounds, bound < rounds →
      buildExtensions rounds .CSV flushedHandlers = .ok lines) ∧
    (Printed flushedHandlers lines ↔ OutputFormat.CSV = .JSON ∨ Covered flushedHandlers) :=
  prints_results_iff flushedHandlers .CSV (Or.inr rfl) (by decide) (by decide)

/-- The first line of the printout shows the misses of the prototypes. -/
theorem flushed_shows_prototype : ∃ lines, (∃ bound, ∀ rounds, bound < rounds →
      buildExtensions rounds .CSV flushedHandlers = .ok lines) ∧
    ¬ Printed flushedHandlers lines := by
  have hnames : (flushedHandlers.map fun hndlr => hndlr.ext.name).Nodup := by decide
  obtain ⟨rows, hmerged, hrows, hprint⟩ :=
    buildExtensions_eq flushedHandlers .CSV (by decide) hnames (by decide)
  refine ⟨_, ⟨rows.length, hprint⟩, ?_⟩
  rw [printed_csv_iff hnames hmerged hrows (linesOf_show hrows _)]
  intro hcovered
  have hleast : IsLeast (sids flushedHandlers) 1 := by
    refine ⟨⟨flushed "LRU 5%", by simp [flushedHandlers], none, by simp [flushed]⟩, ?_⟩
    rintro sid ⟨hndlr, hhndlr, ext, hmem⟩
    obtain ⟨name, -, rfl⟩ := List.mem_map.mp hhndlr
    simp only [flushed, List.mem_cons, Prod.mk.injEq, List.not_mem_nil, or_false] at hmem
    omega
  obtain ⟨r, hr⟩ := hcovered 1 hleast (flushed "LRU 5%") (by simp [flushedHandlers]) rfl
  simp [flushed] at hr

end Octf.Extension
