import Octf.Analytics.IoStatisticsReport

/-! Copies of the statistics report what the original does, whatever is counted next. An assignment
keeps the hit maps of its target, so its LBA histogram does so only where they agree already. -/
namespace Octf.Analytics
open Foundation Octf.Parser

namespace Stats

variable {s t : Stats} {ranges : List ℕ}

/-- Ranges that are hit have a positive count, and the range size is a word. -/
structure Hit (s : Stats) : Prop where
  positive : ∀ k hits, s.lbaHitMap.find k = some hits → 0 < hits
  word : s.lbaHitMapRangeSize < 2 ^ 64

theorem Hit.hits (h : s.Hit) (ranges : List ℕ) : (s.hits ranges).Hit where
  positive := by
    intro k hits hfind
    rw [find_hits] at hfind
    split_ifs at hfind with hzero
    · exact h.positive k hits hfind
    · obtain rfl := Option.some.inj hfind
      omega
  word := (lbaHitMapRangeSize_hits ranges s).symm ▸ h.word

/-- Two maps with positive counts that take the same hits are equal only if they were before. -/
theorem lbaHitMap_hits_inj (hs : s.Hit) (ht : t.Hit) :
    (s.hits ranges).lbaHitMap = (t.hits ranges).lbaHitMap ↔ s.lbaHitMap = t.lbaHitMap := by
  constructor
  · intro heq
    refine OrderedMap.ext_find fun k => ?_
    have hfind := congrArg (OrderedMap.find k) heq
    rw [find_hits, find_hits] at hfind
    split_ifs at hfind with hzero
    · exact hfind
    · have hvalue := Option.some.inj hfind
      cases hsome : s.lbaHitMap.find k with
      | none =>
        cases htome : t.lbaHitMap.find k with
        | none => rfl
        | some hits =>
          have hpositive := ht.positive k hits htome
          simp only [hsome, htome, Option.getD_none, Option.getD_some] at hvalue
          omega
      | some hits =>
        have hpositive := hs.positive k hits hsome
        cases htome : t.lbaHitMap.find k with
        | none =>
          simp only [hsome, htome, Option.getD_none, Option.getD_some] at hvalue
          omega
        | some hits' =>
          simp only [hsome, htome, Option.getD_some] at hvalue
          exact congrArg some (by omega)
  · intro heq
    refine OrderedMap.ext_find fun k => ?_
    rw [find_hits, find_hits, heq]

theorem lbaHitMap_hits_eq_empty :
    (s.hits ranges).lbaHitMap = OrderedMap.empty ↔ s.lbaHitMap = OrderedMap.empty ∧
      ranges = [] := by
  constructor
  · intro hempty
    have hnone : ∀ k, (s.hits ranges).lbaHitMap.find k = none := fun k => by
      rw [hempty]
      rfl
    have hcount : ∀ k, ranges.count k = 0 := by
      intro k
      have hk := hnone k
      rw [find_hits] at hk
      by_contra hne
      rw [if_neg hne] at hk
      cases hk
    refine ⟨OrderedMap.ext_find fun k => ?_, ?_⟩
    · have hk := hnone k
      rw [find_hits, if_pos (hcount k)] at hk
      exact hk
    · exact List.eq_nil_iff_forall_not_mem.mpr fun k => List.count_eq_zero.mp (hcount k)
  · rintro ⟨hempty, rfl⟩
    exact hempty

theorem size_inj {x m n : ℕ} (hm : m < 2 ^ 64) (hn : n < 2 ^ 64)
    (h : sub64 (add64 x m) 1 = sub64 (add64 x n) 1) : m = n := by
  unfold sub64 add64 at h
  omega

/-- The reported ranges tell the map, and the range size if there are any. -/
theorem getLbaHistogramEntry_inj (hs : s.Hit) (ht : t.Hit) :
    s.getLbaHistogramEntry = t.getLbaHistogramEntry ↔ s.lbaHitMap = t.lbaHitMap ∧
      (s.lbaHitMapRangeSize = t.lbaHitMapRangeSize ∨ t.lbaHitMap = OrderedMap.empty) := by
  constructor
  · intro heq
    have hentries : s.lbaHitMap.entries = t.lbaHitMap.entries := by
      have hpairs := congrArg (List.map fun range : HistogramRange => (range.begin, range.count))
        heq
      unfold getLbaHistogramEntry at hpairs
      rw [List.map_map, List.map_map] at hpairs
      exact (List.map_id _).symm.trans (hpairs.trans (List.map_id _))
    have hmap : s.lbaHitMap = t.lbaHitMap := OrderedMap.ext_find fun k => by
      unfold OrderedMap.find
      rw [hentries]
    refine ⟨hmap, ?_⟩
    cases hcons : t.lbaHitMap.entries with
    | nil =>
      refine Or.inr (OrderedMap.ext_find fun k => ?_)
      unfold OrderedMap.find
      rw [hcons]
      rfl
    | cons e es =>
      left
      unfold getLbaHistogramEntry at heq
      rw [hmap, hcons, List.map_cons, List.map_cons] at heq
      have hrange := (List.cons.inj heq).1
      rw [HistogramRange.mk.injEq] at hrange
      exact size_inj hs.word ht.word hrange.2.1
  · rintro ⟨hmap, hsize | hempty⟩
    · unfold getLbaHistogramEntry
      rw [hmap, hsize]
    · unfold getLbaHistogramEntry
      rw [hmap, hempty]
      simp only [OrderedMap.empty, List.map_nil]

end Stats

namespace IoStatistics

variable {a b s s' : IoStatistics} {events : List ParsedEvent}

/-- Everything that is reported. -/
structure Reports where
  statistics : IoStatisticsReport
  latency : IoHistogramReport
  size : IoHistogramReport
  queueDepth : IoHistogramReport
  lba : IoHistogram

def reports (s : IoStatistics) : Reports where
  statistics := s.getIoStatistics
  latency := s.getIoLatencyHistogram
  size := s.getIoSizeHistogram
  queueDepth := s.getQueueDepthHistogram
  lba := s.getIoLbaHistogram

/-- The statistics that the operations lead to. -/
inductive Reachable : IoStatistics → Prop
  | new {rangeSize : ℕ} (hword : rangeSize < 2 ^ 64) : Reachable (new rangeSize)
  | count {s s' : IoStatistics} {event : ParsedEvent} (h : Reachable s)
    (hcount : s.count event = .ok s') : Reachable s'
  | enableLbaHistogram {s : IoStatistics} (h : Reachable s) : Reachable s.enableLbaHistogram
  | copy {other : IoStatistics} (h : Reachable other) : Reachable other.copy
  | assign {other this : IoStatistics} (hother : Reachable other) (h : Reachable this) :
    Reachable (other.assign this)

theorem Reachable.hit (h : s.Reachable) (entry : Entry) : (s.record entry).Hit := by
  induction h with
  | new hword =>
    have hrecord : ∀ rangeSize, (IoStatistics.new rangeSize).record entry =
      Stats.new rangeSize := by
      intro rangeSize
      cases entry <;> rfl
    rw [hrecord]
    refine ⟨fun k hits hfind => ?_, hword⟩
    cases hfind
  | @count s s' event h hcount ih =>
    have hall : countAll [event] s = .ok s' := by
      rw [countAll_cons, hcount]
      rfl
    obtain ⟨hmap, hsize⟩ := record_countAll hall entry
    have hhits := ih.hits ([event].flatMap fun event =>
      entryRanges s.lbaHistEnabled s.lbaHistRangeSize entry (eventIo event))
    exact ⟨hmap ▸ hhits.positive, hsize ▸ ih.word⟩
  | enableLbaHistogram h ih => cases entry <;> exact ih
  | copy h ih => exact ih
  | assign hother h ihOther ih =>
    rw [record_assign]
    exact ⟨ih.positive, ih.word⟩

/-! ### The LBA histogram of an assigned object -/

theorem spannedRanges_ne_nil (rangeSize : ℕ) {io : ParsedIo} (hlen : io.len ≠ 0)
    (hword : io.len < 2 ^ 64) : spannedRanges rangeSize io ≠ [] := by
  have hsub : ∀ x y : ℕ, sub64 x y < 2 ^ 64 := fun x y => by
    unfold sub64
    omega
  have hspan : add64 (sub64 (mul64 (sub64 (add64 io.lba io.len) 1 / rangeSize) rangeSize)
      (mul64 (io.lba / rangeSize) rangeSize) / rangeSize) 1 ≠ 0 := by
    set distance := sub64 (mul64 (sub64 (add64 io.lba io.len) 1 / rangeSize) rangeSize)
      (mul64 (io.lba / rangeSize) rangeSize) with hdistance
    have hlt : distance < 2 ^ 64 := hsub _ _
    have hquotient : distance / rangeSize < 2 ^ 64 - 1 := by
      rcases lt_trichotomy rangeSize 1 with hzero | rfl | hlarge
      · obtain rfl : rangeSize = 0 := by omega
        simp
      · rw [Nat.div_one, hdistance]
        unfold mul64 sub64 add64
        simp only [Nat.div_one, Nat.mul_one]
        omega
      · have hhalf : distance / rangeSize ≤ distance / 2 := Nat.div_le_div_left hlarge (by decide)
        omega
    unfold add64
    rw [Nat.mod_eq_of_lt (by omega)]
    exact Nat.succ_ne_zero _
  unfold spannedRanges
  intro hnil
  exact hspan (List.range_eq_nil.mp (List.map_eq_nil_iff.mp hnil))

theorem entryRanges_eq_nil {rangeSize : ℕ} {entry : Entry} {io : ParsedIo}
    (hword : io.len < 2 ^ 64) :
    entryRanges true rangeSize entry io = [] ↔ (entry.Selects io → io.len = 0) := by
  unfold entryRanges hitRanges
  by_cases hselects : entry.Selects io
  · by_cases hlen : io.len = 0
    · simp [hlen]
    · rw [if_pos hselects, if_pos ⟨rfl, hlen⟩]
      exact ⟨fun hnil => absurd hnil (spannedRanges_ne_nil rangeSize hlen hword),
        fun h => absurd (h hselects) hlen⟩
  · simp [hselects]

/-- With the histogram enabled, the records that it reports agree in their hit maps, and in the
sizes of the ranges unless there is no range to report. -/
def Agree (events : List ParsedEvent) (a b : IoStatistics) : Prop :=
  b.lbaHistEnabled = true → ∀ entry : Entry,
    (a.record entry).lbaHitMap = (b.record entry).lbaHitMap ∧
      ((a.record entry).lbaHitMapRangeSize = (b.record entry).lbaHitMapRangeSize ∨
        (b.record entry).lbaHitMap = OrderedMap.empty ∧
          ∀ event ∈ events, entry.Selects (eventIo event) → (eventIo event).len = 0)

/-- Only the LBA histogram reads what an assignment leaves. -/
theorem reports_assign_iff_entries : (s.assign s').reports = s.reports ↔
    (s.lbaHistEnabled = true → ∀ entry : Entry, (s'.record entry).getLbaHistogramEntry =
      (s.record entry).getLbaHistogramEntry) := by
  have hlba : (s.assign s').reports = s.reports ↔
      (s.assign s').getIoLbaHistogram = s.getIoLbaHistogram := by
    constructor
    · exact congrArg Reports.lba
    · intro heq
      exact congrArg (fun lba => { s.reports with lba := lba }) heq
  have hrecord : ∀ entry, ((s.assign s').record entry).getLbaHistogramEntry =
      (s'.record entry).getLbaHistogramEntry := by
    intro entry
    rw [record_assign]
    rfl
  have hentry : ∀ x : IoStatistics, x.lbaHistEnabled = true → ∀ entry,
      x.getIoLbaHistogram.entry entry = (x.record entry).getLbaHistogramEntry := by
    intro x henabled entry
    unfold getIoLbaHistogram
    rw [if_pos henabled]
    cases entry <;> rfl
  rw [hlba]
  by_cases henabled : s.lbaHistEnabled = true
  · have hassigned : (s.assign s').lbaHistEnabled = true := henabled
    constructor
    · intro heq _ entry
      rw [← hrecord, ← hentry _ hassigned, heq, hentry _ henabled]
    · intro hall
      unfold getIoLbaHistogram
      rw [if_pos henabled, if_pos hassigned]
      have hdiscard := (hrecord .discard).trans (hall henabled .discard)
      have hwrite := (hrecord .write).trans (hall henabled .write)
      have hread := (hrecord .read).trans (hall henabled .read)
      have htotal := (hrecord .total).trans (hall henabled .total)
      change IoHistogram.mk _ _ _ _ _ = IoHistogram.mk _ _ _ _ _
      exact IoHistogram.mk.injEq .. ▸ ⟨hdiscard, hwrite, hread, htotal, rfl⟩
  · have hassigned : ¬ (s.assign s').lbaHistEnabled = true := henabled
    unfold getIoLbaHistogram
    rw [if_neg henabled, if_neg hassigned]
    exact ⟨fun _ h => absurd h henabled, fun _ => rfl⟩

theorem countAll_assign_ok (a : IoStatistics) (h : countAll events b = .ok s) :
    countAll events (b.assign a) =
      .ok (s.assign (a.countAllHits b.lbaHistEnabled b.lbaHistRangeSize events)) := by
  rw [countAll_assign, h]
  rfl

/-- After an assignment the same events lead to the same reports if and only if the records
agree. -/
theorem reports_countAll_assign_iff (ha : a.Reachable) (hb : b.Reachable)
    (hwords : ∀ event ∈ events, (eventIo event).len < 2 ^ 64) (h : countAll events b = .ok s) :
    (countAll events (b.assign a)).map reports = .ok s.reports ↔ Agree events a b := by
  have henabled := (settings_of_countAll h).1
  rw [countAll_assign_ok a h]
  change Except.ok (s.assign _).reports = Except.ok s.reports ↔ _
  rw [Except.ok.injEq, reports_assign_iff_entries, henabled]
  unfold Agree
  refine forall_congr' fun hon => forall_congr' fun entry => ?_
  have hranges : (events.flatMap fun event => entryRanges b.lbaHistEnabled b.lbaHistRangeSize entry
      (eventIo event)) = [] ↔
        ∀ event ∈ events, entry.Selects (eventIo event) → (eventIo event).len = 0 := by
    rw [List.flatMap_eq_nil_iff, hon]
    exact forall₂_congr fun event hevent => entryRanges_eq_nil (hwords event hevent)
  obtain ⟨hmap, hsize⟩ := record_countAll h entry
  rw [record_countAllHits, ← hranges]
  set ranges := events.flatMap fun event => entryRanges b.lbaHistEnabled b.lbaHistRangeSize entry
    (eventIo event)
  have hbHits := (hb.hit entry).hits ranges
  have hsHit : (s.record entry).Hit :=
    ⟨hmap ▸ hbHits.positive, hsize ▸ (hb.hit entry).word⟩
  rw [Stats.getLbaHistogramEntry_inj ((ha.hit entry).hits ranges) hsHit, hmap, hsize,
    Stats.lbaHitMap_hits_inj (ha.hit entry) (hb.hit entry), Stats.lbaHitMapRangeSize_hits,
    Stats.lbaHitMap_hits_eq_empty]

/-- The later events lead the target of an assignment to the reports of the original exactly when
the records agree, and the two fail alike; a copy goes on as the original. -/
theorem reports_assign_iff (ha : a.Reachable) (hb : b.Reachable) (events : List ParsedEvent)
    (hwords : ∀ event ∈ events, (eventIo event).len < 2 ^ 64) :
    (∀ s, countAll events b = .ok s →
      ((countAll events (b.assign a)).map reports = .ok s.reports ↔ Agree events a b)) ∧
    (∀ failure, countAll events b = .error failure →
      countAll events (b.assign a) = .error failure) ∧
    countAll events b.copy = countAll events b := by
  refine ⟨fun s h => reports_countAll_assign_iff ha hb hwords h, fun failure h => ?_, ?_⟩
  · rw [countAll_assign, h]
    rfl
  · rw [copy_eq]

theorem words_readAt (times : List ℕ) :
    ∀ event ∈ times.map readAt, (eventIo event).len < 2 ^ 64 := by
  intro event hevent
  obtain ⟨time, -, rfl⟩ := List.mem_map.mp hevent
  exact show 8 < 2 ^ 64 by decide

theorem reports_assign_iff_readAt : ∃ s, countAll ([5].map readAt) (start 8 true) = .ok s ∧
    ((countAll ([5].map readAt) ((start 8 true).assign (new 8))).map reports = .ok s.reports ↔
      Agree ([5].map readAt) (new 8) (start 8 true)) := by
  obtain ⟨s, hok⟩ := exists_countAll_readAt [5] true
  have hassign := reports_assign_iff (Reachable.new (show 8 < 2 ^ 64 by decide))
    (Reachable.new (show 8 < 2 ^ 64 by decide)).enableLbaHistogram ([5].map readAt)
      (words_readAt [5])
  exact ⟨s, hok, hassign.1 s hok⟩

/-- The target keeps ranges of its own size, which end elsewhere. -/
theorem reports_assign_rangeSize : (new 16).Reachable ∧ (start 8 true).Reachable ∧
    ∃ s, countAll ([5].map readAt) (start 8 true) = .ok s ∧
      (countAll ([5].map readAt) ((start 8 true).assign (new 16))).map reports ≠
        .ok s.reports := by
  have ha : (new 16).Reachable := .new (by decide)
  have hb : (start 8 true).Reachable := (Reachable.new (by decide)).enableLbaHistogram
  obtain ⟨s, hok⟩ := exists_countAll_readAt [5] true
  refine ⟨ha, hb, s, hok, fun heq => ?_⟩
  have hagree := (reports_countAll_assign_iff ha hb (words_readAt [5]) hok).mp heq
  obtain ⟨-, hsize | ⟨-, hlen⟩⟩ := hagree rfl .total
  · exact absurd hsize (by decide)
  · exact absurd (hlen (readAt 5) (List.mem_singleton.mpr rfl) trivial) (by decide)

end IoStatistics

end Octf.Analytics
