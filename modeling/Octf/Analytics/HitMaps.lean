import Octf.Analytics.LbaCoverage

/-! The LBA hit maps of the statistics: counting changes them by hits of ranges, whatever the rest
of the records holds, and nothing else depends on them. -/
namespace Octf.Analytics
open Foundation Octf.Parser

namespace Stats

/-- `Stats(const Stats &)` -/
def copy (other : Stats) : Stats where
  sizeDistribution := other.sizeDistribution.copy
  count := other.count
  latencyDistribution := other.latencyDistribution.copy
  qdDistribution := other.qdDistribution.copy
  errors := other.errors
  wc := other.wc.copy
  lbaHitMap := other.lbaHitMap
  lbaHitMapRangeSize := other.lbaHitMapRangeSize

/-- `operator=`, which leaves the hit map and the size of its ranges. -/
def assign (other this : Stats) : Stats :=
  { this with
    sizeDistribution := other.sizeDistribution.copy
    count := other.count
    latencyDistribution := other.latencyDistribution.copy
    qdDistribution := other.qdDistribution.copy
    errors := other.errors
    wc := other.wc.copy }

/-- The record with hits of ranges. -/
def hits (ranges : List ℕ) (s : Stats) : Stats := ranges.foldl (fun s k => s.hit k) s

variable {s t : Stats} {ranges : List ℕ}

theorem hits_append (ranges ranges' : List ℕ) (s : Stats) :
    s.hits (ranges ++ ranges') = (s.hits ranges).hits ranges' := List.foldl_append ..

theorem hits_assign (ranges : List ℕ) (s t : Stats) :
    (s.assign t).hits ranges = (s.hits ranges).assign (t.hits ranges) := by
  induction ranges generalizing s t with
  | nil => rfl
  | cons k ranges ih => exact ih (s.hit k) (t.hit k)

theorem lbaHitMapRangeSize_hits (ranges : List ℕ) (s : Stats) :
    (s.hits ranges).lbaHitMapRangeSize = s.lbaHitMapRangeSize := by
  induction ranges generalizing s with
  | nil => rfl
  | cons k ranges ih => exact ih (s.hit k)

/-- A range is in the map when it was there, or when it is hit. -/
theorem find_hits (ranges : List ℕ) (s : Stats) (k : ℕ) :
    (s.hits ranges).lbaHitMap.find k =
      if ranges.count k = 0 then s.lbaHitMap.find k
      else some ((s.lbaHitMap.find k).getD 0 + ranges.count k) := by
  induction ranges generalizing s with
  | nil => rfl
  | cons r ranges ih =>
    have hfirst : (s.hit r).lbaHitMap.find k =
        if k = r then some ((s.lbaHitMap.find r).getD 0 + 1) else s.lbaHitMap.find k :=
      OrderedMap.find_alter ..
    have hrest := ih (s.hit r)
    rw [hfirst] at hrest
    refine hrest.trans ?_
    by_cases hk : k = r
    · subst hk
      rw [List.count_cons_self, if_neg (Nat.succ_ne_zero _), if_pos rfl]
      split_ifs with hzero
      · rw [hzero]
      · rw [Option.getD_some, Nat.add_assoc, Nat.add_comm 1]
    · rw [List.count_cons_of_ne (Ne.symm hk), if_neg hk]

end Stats

namespace IoStatistics

/-- `IoStatistics(const IoStatistics &)` -/
def copy (other : IoStatistics) : IoStatistics where
  statistics type := (other.statistics type).copy
  total := other.total.copy
  flush := other.flush.copy
  lbaHistRangeSize := other.lbaHistRangeSize
  startTime := other.startTime
  endTime := other.endTime
  lbaHistEnabled := other.lbaHistEnabled

/-- `operator=` -/
def assign (other this : IoStatistics) : IoStatistics where
  statistics type := (other.statistics type).assign (this.statistics type)
  total := other.total.assign this.total
  flush := other.flush.assign this.flush
  lbaHistRangeSize := other.lbaHistRangeSize
  startTime := other.startTime
  endTime := other.endTime
  lbaHistEnabled := other.lbaHistEnabled

/-- The ranges of an IO that are hit. -/
def hitRanges (enabled : Bool) (rangeSize : ℕ) (io : ParsedIo) : List ℕ :=
  if enabled = true ∧ io.len ≠ 0 then spannedRanges rangeSize io else []

/-- The statistics with the hits of an IO. -/
def countHits (enabled : Bool) (rangeSize : ℕ) (io : ParsedIo) (s : IoStatistics) :
    IoStatistics :=
  { s with total := s.total.hits (hitRanges enabled rangeSize io) }.setPart (partOf io)
    ((s.part (partOf io)).hits (hitRanges enabled rangeSize io))

variable {s t : IoStatistics} {records targets : Stats × Stats} {enabled : Bool} {rangeSize : ℕ}
  {io : ParsedIo}

theorem copy_eq (s : IoStatistics) : s.copy = s := rfl

theorem assign_self (s : IoStatistics) : s.assign s = s := rfl

theorem part_assign (s t : IoStatistics) (p : Part) :
    (s.assign t).part p = (s.part p).assign (t.part p) := by
  cases p <;> rfl

theorem record_assign (s t : IoStatistics) (entry : Entry) :
    (s.assign t).record entry = (s.record entry).assign (t.record entry) := by
  cases entry <;> rfl

/-! ### The parts of `count` -/

/-- The records with the hit maps of others. -/
def assignBoth (records targets : Stats × Stats) : Stats × Stats :=
  (records.1.assign targets.1, records.2.assign targets.2)

theorem countLbaHits_assign (enabled : Bool) (rangeSize : ℕ) (io : ParsedIo)
    (records targets : Stats × Stats) :
    countLbaHits enabled rangeSize io (assignBoth records targets) =
      (countLbaHits enabled rangeSize io records).map fun counted => assignBoth counted
        (targets.1.hits (hitRanges enabled rangeSize io),
          targets.2.hits (hitRanges enabled rangeSize io)) := by
  unfold countLbaHits hitRanges
  split_ifs
  · rfl
  · rw [foldl_pair, foldl_pair]
    refine congrArg Except.ok (Prod.ext ?_ ?_) <;> exact Stats.hits_assign ..
  · rfl

theorem countValue_assign (kind : Kind) (value : ℕ) (records targets : Stats × Stats) :
    countValue kind value (assignBoth records targets) =
      (countValue kind value records).map fun counted => assignBoth counted targets := by
  have hdistribution : ∀ s t : Stats, (s.assign t).distribution kind = s.distribution kind := by
    cases kind <;> exact fun _ _ => rfl
  have hset : ∀ (s t : Stats) (d : Distribution),
      (s.assign t).setDistribution kind d = (s.setDistribution kind d).assign t := by
    cases kind <;> exact fun _ _ _ => rfl
  unfold countValue assignBoth
  split_ifs
  · simp only [hdistribution, hset]
    cases (records.2.distribution kind).add value with
    | error failure => rfl
    | ok total =>
      cases (records.1.distribution kind).add value with
      | error failure => rfl
      | ok stats => rfl
  · rfl

theorem countError_assign (error : Bool) (records targets : Stats × Stats) :
    countError error (assignBoth records targets) =
      assignBoth (countError error records) targets := by
  unfold countError
  split_ifs <;> rfl

theorem countRecords_assign (enabled : Bool) (rangeSize : ℕ) (io : ParsedIo)
    (records targets : Stats × Stats) :
    countRecords enabled rangeSize io (assignBoth records targets) =
      (countRecords enabled rangeSize io records).map fun counted => assignBoth counted
        (targets.1.hits (hitRanges enabled rangeSize io),
          targets.2.hits (hitRanges enabled rangeSize io)) := by
  unfold countRecords
  rw [countLbaHits_assign]
  cases countLbaHits enabled rangeSize io records with
  | error failure => rfl
  | ok r₁ =>
    simp only [Except.map, bind_ok, countValue_assign]
    cases countValue .latency io.latency r₁ with
    | error failure => rfl
    | ok r₂ =>
      simp only [Except.map, bind_ok, countValue_assign]
      cases countValue .qd io.qd r₂ with
      | error failure => rfl
      | ok r₃ => simp only [Except.map, bind_ok, countError_assign, countValue_assign]

theorem setPart_assign (s t : IoStatistics) (p : Part) (x y : Stats) :
    (s.assign t).setPart p (x.assign y) = (s.setPart p x).assign (t.setPart p y) := by
  cases p with
  | flush => rfl
  | operation type =>
    have hstatistics : Function.update (s.assign t).statistics type (x.assign y) = fun type' =>
        (Function.update s.statistics type x type').assign
          (Function.update t.statistics type y type') := by
      funext type'
      by_cases htype : type' = type
      · subst htype
        simp only [Function.update_self]
      · simp only [Function.update_of_ne htype]
        rfl
    exact congrArg (fun statistics => { s.assign t with statistics := statistics }) hstatistics

theorem updateWorksets_assign (io : ParsedIo) (s t : IoStatistics) :
    (s.assign t).updateWorksets io = (s.updateWorksets io).assign t := by
  have hdiscard : (fun type => if type = .Discard then
      ((s.assign t).statistics type).updateWc (.insertRange io.lba io.len)
      else ((s.assign t).statistics type).updateWc (.removeRange io.lba io.len)) = fun type =>
        (if type = .Discard then (s.statistics type).updateWc (.insertRange io.lba io.len)
          else (s.statistics type).updateWc (.removeRange io.lba io.len)).assign
            (t.statistics type) := by
    funext type
    split_ifs <;> rfl
  have hother : Function.update (s.assign t).statistics io.operation
      (((s.assign t).statistics io.operation).updateWc (.insertRange io.lba io.len)) = fun type =>
        (Function.update s.statistics io.operation ((s.statistics io.operation).updateWc
          (.insertRange io.lba io.len)) type).assign (t.statistics type) := by
    funext type
    by_cases htype : type = io.operation
    · subst htype
      simp only [Function.update_self]
      rfl
    · simp only [Function.update_of_ne htype]
      rfl
  unfold updateWorksets
  split_ifs
  · rfl
  · exact congrArg (fun statistics => { s.assign t with
      statistics := statistics
      total := (s.assign t).total.updateWc (.removeRange io.lba io.len) }) hdiscard
  · exact congrArg (fun statistics => { s.assign t with
      statistics := statistics
      total := (s.assign t).total.updateWc (.insertRange io.lba io.len) }) hother

theorem store_assign (io : ParsedIo) (records targets : Stats × Stats) (s t : IoStatistics) :
    store io (assignBoth records targets) (s.assign t) =
      (store io records s).assign ({ t with total := targets.2 }.setPart (partOf io)
        targets.1) := by
  let placed := ({ s with total := records.2 }.setPart (partOf io) records.1).updateWorksets io
  let target := { t with total := targets.2 }.setPart (partOf io) targets.1
  have hplaced : ({ s.assign t with total := records.2.assign targets.2 }.setPart (partOf io)
      (records.1.assign targets.1)).updateWorksets io = placed.assign target := by
    rw [← updateWorksets_assign]
    exact congrArg _ (setPart_assign { s with total := records.2 } { t with total := targets.2 } ..)
  have htarget : target.setPart (partOf io) (target.part (partOf io)) = target := by
    cases hp : partOf io with
    | flush => rfl
    | operation type => simp [target, hp, setPart, part]
  unfold store assignBoth
  simp only [hplaced, part_assign]
  refine Eq.trans (setPart_assign { placed with
    total := { placed.total with count := placed.total.count + 1 } } target (partOf io)
    { placed.part (partOf io) with count := (placed.part (partOf io)).count + 1 }
    (target.part (partOf io))) ?_
  rw [htarget]

/-- The hit maps of the target take the hits of the event, and nothing else is read of it. -/
theorem count_assign (event : ParsedEvent) (s t : IoStatistics) :
    (s.assign t).count event = (s.count event).map fun s' =>
      s'.assign (t.countHits s.lbaHistEnabled s.lbaHistRangeSize (eventIo event)) := by
  have hrecords := countRecords_assign s.lbaHistEnabled s.lbaHistRangeSize (eventIo event)
    (s.part (partOf (eventIo event)), s.total) (t.part (partOf (eventIo event)), t.total)
  have hpart : ((s.assign t).part (partOf (eventIo event)), (s.assign t).total) =
      assignBoth (s.part (partOf (eventIo event)), s.total)
        (t.part (partOf (eventIo event)), t.total) := by
    rw [part_assign]
    rfl
  unfold count
  simp only [hpart]
  change (countRecords s.lbaHistEnabled s.lbaHistRangeSize _ (assignBoth _ _) >>= _) = _
  rw [hrecords]
  cases countRecords s.lbaHistEnabled s.lbaHistRangeSize (eventIo event)
      (s.part (partOf (eventIo event)), s.total) with
  | error failure => rfl
  | ok records =>
    simp only [Except.map, bind_ok]
    rw [store_assign]
    rfl

/-! ### Runs -/

theorem settings_of_count {event : ParsedEvent} {s' : IoStatistics} (h : s.count event = .ok s') :
    s'.lbaHistEnabled = s.lbaHistEnabled ∧ s'.lbaHistRangeSize = s.lbaHistRangeSize :=
  ⟨(hit_of_count h).enabled, (hit_of_count h).rangeSize⟩

/-- Count the events one after the other. -/
def countAll (events : List ParsedEvent) (s : IoStatistics) : Except Failure IoStatistics :=
  run (events.map .count) s

theorem countAll_cons (event : ParsedEvent) (events : List ParsedEvent) (s : IoStatistics) :
    countAll (event :: events) s = s.count event >>= countAll events := List.foldlM_cons ..

theorem settings_of_countAll {events : List ParsedEvent} {s' : IoStatistics}
    (h : countAll events s = .ok s') :
    s'.lbaHistEnabled = s.lbaHistEnabled ∧ s'.lbaHistRangeSize = s.lbaHistRangeSize := by
  induction events generalizing s with
  | nil =>
    obtain rfl := Except.ok.inj h
    exact ⟨rfl, rfl⟩
  | cons event events ih =>
    rw [countAll_cons] at h
    obtain ⟨s₁, hcount, hrest⟩ := ok_of_bind h
    have hsettings := settings_of_count hcount
    have hlast := ih hrest
    exact ⟨hlast.1.trans hsettings.1, hlast.2.trans hsettings.2⟩

theorem exists_countAll (hs : s.Valid) (hpos : 0 < s.lbaHistRangeSize) {events : List ParsedEvent}
    (hevents : ∀ event ∈ events, Bounded (eventIo event)) : ∃ s', countAll events s = .ok s' := by
  induction events generalizing s with
  | nil => exact ⟨s, rfl⟩
  | cons event events ih =>
    rcases count_spec hs (hevents event List.mem_cons_self) with
      ⟨hzero, -⟩ | ⟨s₁, hok, hcounted⟩
    · exact absurd hzero hpos.ne'
    · rw [countAll_cons, hok, bind_ok]
      exact ih hcounted.valid (hcounted.rangeSize ▸ hpos) fun event' hevent' =>
        hevents event' (List.mem_cons_of_mem event hevent')

/-- The statistics with the hits of all the events. -/
def countAllHits (enabled : Bool) (rangeSize : ℕ) (events : List ParsedEvent) (s : IoStatistics) :
    IoStatistics :=
  events.foldl (fun s event => s.countHits enabled rangeSize (eventIo event)) s

theorem countAll_assign (events : List ParsedEvent) (s t : IoStatistics) :
    countAll events (s.assign t) = (countAll events s).map fun s' =>
      s'.assign (t.countAllHits s.lbaHistEnabled s.lbaHistRangeSize events) := by
  induction events generalizing s t with
  | nil => rfl
  | cons event events ih =>
    rw [countAll_cons, countAll_cons, count_assign]
    cases hcount : s.count event with
    | error failure => rfl
    | ok s₁ =>
      obtain ⟨henabled, hsize⟩ := settings_of_count hcount
      simp only [Except.map, bind_ok]
      rw [ih, henabled, hsize]
      rfl

/-- The hits of an IO in the record of an entry. -/
def entryRanges (enabled : Bool) (rangeSize : ℕ) (entry : Entry) (io : ParsedIo) : List ℕ :=
  if entry.Selects io then hitRanges enabled rangeSize io else []

theorem record_countHits (enabled : Bool) (rangeSize : ℕ) (io : ParsedIo) (s : IoStatistics)
    (entry : Entry) : (s.countHits enabled rangeSize io).record entry =
      (s.record entry).hits (entryRanges enabled rangeSize entry io) := by
  have hpart : ∀ type, (s.countHits enabled rangeSize io).part (.operation type) =
      (s.part (.operation type)).hits
        (if io.operation = type then hitRanges enabled rangeSize io else []) := by
    intro type
    unfold countHits
    rw [part_setPart]
    by_cases hlen : io.len = 0
    · have hnone : hitRanges enabled rangeSize io = [] := if_neg fun h => h.2 hlen
      rw [hnone, ite_self]
      split_ifs with hp
      · rw [hp]
      · rfl
    · have hoperation : partOf io = .operation io.operation := if_neg fun hsync => hlen hsync.2
      rw [hoperation]
      by_cases htype : type = io.operation
      · subst htype
        rw [if_pos rfl, if_pos rfl]
      · rw [if_neg fun heq => htype (Part.operation.inj heq), if_neg (Ne.symm htype)]
        rfl
  cases entry with
  | total =>
    have hall : entryRanges enabled rangeSize .total io = hitRanges enabled rangeSize io :=
      if_pos trivial
    rw [hall]
    exact total_setPart ..
  | discard => exact hpart .Discard
  | write => exact hpart .Write
  | read => exact hpart .Read

theorem record_countAllHits (enabled : Bool) (rangeSize : ℕ) (events : List ParsedEvent)
    (s : IoStatistics) (entry : Entry) :
    (s.countAllHits enabled rangeSize events).record entry = (s.record entry).hits
      (events.flatMap fun event => entryRanges enabled rangeSize entry (eventIo event)) := by
  induction events generalizing s with
  | nil => rfl
  | cons event events ih =>
    refine (ih (s.countHits enabled rangeSize (eventIo event))).trans ?_
    rw [record_countHits, List.flatMap_cons, Stats.hits_append]

/-- What the map of an entry holds after the events. -/
theorem record_countAll {events : List ParsedEvent} {s' : IoStatistics}
    (h : countAll events s = .ok s') (entry : Entry) :
    (s'.record entry).lbaHitMap = ((s.record entry).hits (events.flatMap fun event =>
        entryRanges s.lbaHistEnabled s.lbaHistRangeSize entry (eventIo event))).lbaHitMap ∧
      (s'.record entry).lbaHitMapRangeSize = (s.record entry).lbaHitMapRangeSize := by
  have hself := countAll_assign events s s
  rw [assign_self, h] at hself
  have hs' : s' = s'.assign (s.countAllHits s.lbaHistEnabled s.lbaHistRangeSize events) :=
    Except.ok.inj hself
  have hrecord : s'.record entry = (s'.record entry).assign
      ((s.countAllHits s.lbaHistEnabled s.lbaHistRangeSize events).record entry) := by
    rw [← record_assign, ← hs']
  rw [record_countAllHits] at hrecord
  refine ⟨(congrArg Stats.lbaHitMap hrecord).trans rfl,
    (congrArg Stats.lbaHitMapRangeSize hrecord).trans ?_⟩
  exact Stats.lbaHitMapRangeSize_hits ..

end IoStatistics

end Octf.Analytics
