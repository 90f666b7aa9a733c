import Octf.Analytics.HitMaps

/-! The statistics of a set without LBA histograms, device by device: each device has those of its
own events, whatever was described or counted in between. -/
namespace Octf.Analytics
open Foundation Octf.Parser

namespace IoStatistics

variable {s s' : IoStatistics} {records records' : Stats × Stats} {io : ParsedIo}

/-! ### The number of IOs -/

theorem count_countValue {kind : Kind} {x : ℕ} (h : countValue kind x records = .ok records') :
    records'.1.count = records.1.count ∧ records'.2.count = records.2.count := by
  obtain ⟨stats, total, rfl⟩ := eq_of_countValue h
  cases kind <;> exact ⟨rfl, rfl⟩

theorem count_countLbaHits {enabled : Bool} {rangeSize : ℕ}
    (h : countLbaHits enabled rangeSize io records = .ok records') :
    records'.1.count = records.1.count ∧ records'.2.count = records.2.count := by
  have hhits : ∀ (ranges : List ℕ) (stats : Stats),
      (ranges.foldl (fun s k => s.hit k) stats).count = stats.count := by
    intro ranges
    induction ranges with
    | nil => exact fun _ => rfl
    | cons k ranges ih => exact fun stats => ih (stats.hit k)
  unfold countLbaHits at h
  split_ifs at h
  · obtain rfl := Except.ok.inj h
    rw [foldl_pair]
    exact ⟨hhits _ _, hhits _ _⟩
  · obtain rfl := Except.ok.inj h
    exact ⟨rfl, rfl⟩

theorem count_countRecords {enabled : Bool} {rangeSize : ℕ}
    (h : countRecords enabled rangeSize io records = .ok records') :
    records'.1.count = records.1.count ∧ records'.2.count = records.2.count := by
  unfold countRecords at h
  obtain ⟨r₁, hr₁, h⟩ := ok_of_bind h
  obtain ⟨r₂, hr₂, h⟩ := ok_of_bind h
  obtain ⟨r₃, hr₃, h⟩ := ok_of_bind h
  have herror : (countError io.error r₃).1.count = r₃.1.count ∧
      (countError io.error r₃).2.count = r₃.2.count := by
    unfold countError
    split_ifs <;> exact ⟨rfl, rfl⟩
  have h₁ := count_countLbaHits hr₁
  have h₂ := count_countValue hr₂
  have h₃ := count_countValue hr₃
  have h₄ := count_countValue h
  exact ⟨h₄.1.trans (herror.1.trans (h₃.1.trans (h₂.1.trans h₁.1))),
    h₄.2.trans (herror.2.trans (h₃.2.trans (h₂.2.trans h₁.2)))⟩

theorem count_store (io : ParsedIo) (records : Stats × Stats) (s : IoStatistics) :
    (s.store io records).total.count = records.2.count + 1 ∧
      ∀ p, ((s.store io records).part p).count =
        if p = partOf io then records.1.count + 1 else (s.part p).count := by
  let placed := { s with total := records.2 }.setPart (partOf io) records.1
  have hsets : (placed.updateWorksets io).total.count = placed.total.count ∧
      ∀ p, ((placed.updateWorksets io).part p).count = (placed.part p).count := by
    unfold updateWorksets
    split_ifs
    · exact ⟨rfl, fun _ => rfl⟩
    · refine ⟨rfl, fun p => ?_⟩
      cases p with
      | operation type => by_cases htype : type = .Discard <;> simp [part, htype, Stats.updateWc]
      | flush => rfl
    · refine ⟨rfl, fun p => ?_⟩
      cases p with
      | operation type =>
        by_cases htype : type = io.operation <;> simp [part, htype, Stats.updateWc]
      | flush => rfl
  have hplaced : ∀ p, (placed.part p).count =
      if p = partOf io then records.1.count else (s.part p).count := by
    intro p
    rw [part_setPart]
    split_ifs
    · rfl
    · cases p <;> rfl
  have htotal : placed.total = records.2 := total_setPart _ _ _
  let counted : IoStatistics := { placed.updateWorksets io with
    total := { (placed.updateWorksets io).total with
      count := (placed.updateWorksets io).total.count + 1 } }
  let stats := (placed.updateWorksets io).part (partOf io)
  have hstore : s.store io records =
      counted.setPart (partOf io) { stats with count := stats.count + 1 } := rfl
  have hkeep : ∀ p, counted.part p = (placed.updateWorksets io).part p := by
    intro p
    cases p <;> rfl
  rw [hstore]
  constructor
  · rw [total_setPart, ← htotal, ← hsets.1]
  · intro p
    rw [part_setPart]
    split_ifs with hp
    · change ((placed.updateWorksets io).part (partOf io)).count + 1 = _
      rw [hsets.2, hplaced, if_pos rfl]
    · rw [hkeep, hsets.2, hplaced, if_neg hp]

/-- An event that is counted is one more IO of its record and of the total. -/
theorem counts_of_count {event : ParsedEvent} (h : s.count event = .ok s') :
    s'.total.count = s.total.count + 1 ∧ ∀ p, (s'.part p).count =
      (s.part p).count + if partOf (eventIo event) = p then 1 else 0 := by
  unfold count at h
  obtain ⟨records, hrecords, h⟩ := ok_of_bind h
  obtain ⟨hpart, htotal⟩ := count_countRecords hrecords
  obtain ⟨hstoreTotal, hstorePart⟩ := count_store (eventIo event) records s
  obtain rfl := Except.ok.inj h
  refine ⟨by rw [← htotal]; exact hstoreTotal, fun p => ?_⟩
  have hkeep : ∀ startTime endTime, ({ s.store (eventIo event) records with
      startTime := startTime, endTime := endTime } : IoStatistics).part p =
        (s.store (eventIo event) records).part p := by
    intro _ _
    cases p <;> rfl
  rw [hkeep, hstorePart]
  by_cases hp : p = partOf (eventIo event)
  · rw [if_pos hp, if_pos hp.symm, hpart, hp]
  · rw [if_neg hp, if_neg (Ne.symm hp), Nat.add_zero]

/-! ### The events of one device -/

variable {events : List ParsedEvent}

theorem countAll_append (events : List ParsedEvent) (event : ParsedEvent) (s : IoStatistics) :
    countAll (events ++ [event]) s = countAll events s >>= fun s => s.count event := by
  induction events generalizing s with
  | nil =>
    rw [List.nil_append, countAll_cons]
    exact bind_pure _
  | cons first events ih =>
    rw [List.cons_append, countAll_cons, countAll_cons]
    cases s.count first with
    | error failure => rfl
    | ok s₁ => exact ih s₁

theorem counts_of_countAll (h : countAll events s = .ok s') :
    s'.total.count = s.total.count + events.length ∧ ∀ p, (s'.part p).count =
      (s.part p).count + events.countP fun event => partOf (eventIo event) = p := by
  induction events generalizing s with
  | nil =>
    obtain rfl := Except.ok.inj h
    exact ⟨rfl, fun _ => rfl⟩
  | cons event events ih =>
    rw [countAll_cons] at h
    obtain ⟨s₁, hcount, h⟩ := ok_of_bind h
    obtain ⟨htotal₁, hpart₁⟩ := counts_of_count hcount
    obtain ⟨htotal, hpart⟩ := ih h
    refine ⟨by rw [htotal, htotal₁, List.length_cons]; omega, fun p => ?_⟩
    rw [hpart, hpart₁, List.countP_cons]
    simp only [decide_eq_true_eq]
    omega

/-- The total of bounded events grows by what each of them adds. -/
theorem total_of_countAll (hs : s.Valid) (hevents : ∀ event ∈ events, Bounded (eventIo event))
    (h : countAll events s = .ok s') (c : Counter) : c.value s'.total = c.wrap
      (c.value s.total + (events.map fun event =>
        ioGrowth s.lbaHistEnabled s.lbaHistRangeSize (eventIo event) c).sum) := by
  induction events generalizing s with
  | nil =>
    obtain rfl := Except.ok.inj h
    exact (hs.total.wrap c).symm
  | cons event events ih =>
    rw [countAll_cons] at h
    obtain ⟨s₁, hcount, h⟩ := ok_of_bind h
    rcases count_spec hs (hevents event List.mem_cons_self) with
      ⟨-, herror⟩ | ⟨s₂, hok, hcounted⟩
    · rw [hcount] at herror
      cases herror
    · obtain rfl : s₁ = s₂ := Except.ok.inj (hcount.symm.trans hok)
      rw [ih hcounted.valid (fun event' h' => hevents event' (List.mem_cons_of_mem event h')) h,
        hcounted.total.value, hcounted.enabled, hcounted.rangeSize, Counter.wrap_wrap_add,
        List.map_cons, List.sum_cons, Nat.add_assoc]

end IoStatistics

namespace IoStatisticsSet
open IoStatistics

variable {id rangeSize : ℕ} {calls : List Call} {call : Call} {s s' : IoStatisticsSet}

/-- The events of a device that are counted. -/
def counted (id : ℕ) (calls : List Call) : List ParsedEvent :=
  calls.filterMap fun
    | .count event => if event.device.id = id then some event else none
    | .addDevice _ => none

/-- The statistics of a device, empty before its first call. -/
def statisticsOf (rangeSize id : ℕ) (s : IoStatisticsSet) : IoStatistics :=
  (s.statistics id).getD (.new rangeSize)

/-- The set after the calls. -/
structure Separates (rangeSize : ℕ) (calls : List Call) (s : IoStatisticsSet) : Prop where
  setting : s.lbaHitRangeSize = rangeSize
  disabled : s.lbaHistEnabled = false
  present : ∀ id, (s.statistics id).isSome = true ↔ ∃ call ∈ calls, call.device = id
  statistics : ∀ id, countAll (counted id calls) (.new rangeSize) =
    .ok (s.statisticsOf rangeSize id)

theorem counted_append : counted id (calls ++ [call]) = counted id calls ++ counted id [call] :=
  List.filterMap_append ..

theorem counted_other (h : call.device ≠ id) : counted id [call] = [] := by
  cases call with
  | addDevice devDesc => rfl
  | count event =>
    have hother : ¬ event.device.id = id := h
    simp [counted, hother]

theorem separates_new (rangeSize : ℕ) : Separates rangeSize [] (new rangeSize) where
  setting := rfl
  disabled := rfl
  present _ := ⟨fun h => (nomatch h), fun ⟨_, hmem, _⟩ => (nomatch hmem)⟩
  statistics _ := rfl

/-- A set in which a call has changed the statistics of its device. -/
theorem Separates.step (h : Separates rangeSize calls s) {stats : IoStatistics}
    (hstatistics : ∀ id, s'.statistics id =
      if id = call.device then some stats else s.statistics id)
    (hsetting : s'.lbaHitRangeSize = s.lbaHitRangeSize)
    (hdisabled : s'.lbaHistEnabled = s.lbaHistEnabled)
    (hstats : countAll (counted call.device (calls ++ [call])) (.new rangeSize) = .ok stats) :
    Separates rangeSize (calls ++ [call]) s' where
  setting := hsetting.trans h.setting
  disabled := hdisabled.trans h.disabled
  present id := by
    have hlast : (∃ c ∈ calls ++ [call], c.device = id) ↔
        (∃ c ∈ calls, c.device = id) ∨ call.device = id := by simp [or_and_right, exists_or]
    rw [hlast, ← h.present, hstatistics]
    split_ifs with hid
    · simp [hid]
    · exact (or_iff_left fun heq => hid heq.symm).symm
  statistics id := by
    rw [statisticsOf, hstatistics]
    split_ifs with hid
    · exact hid ▸ hstats
    · rw [counted_append, counted_other (Ne.symm hid), List.append_nil]
      exact h.statistics id

theorem Separates.addDevice (h : Separates rangeSize calls s) (devDesc : EventDeviceDescription) :
    Separates rangeSize (calls ++ [.addDevice devDesc]) (s.addDevice devDesc) := by
  have hcounted : counted devDesc.id (calls ++ [.addDevice devDesc]) =
    counted devDesc.id calls := by
    rw [counted_append]
    exact List.append_nil _
  have hold := h.statistics devDesc.id
  rw [← hcounted] at hold
  unfold IoStatisticsSet.addDevice
  cases hfind : s.map.find devDesc.id with
  | some entry =>
    have hnone : (s.map.erase devDesc.id).find devDesc.id = none := by
      rw [OrderedMap.find_erase, if_pos rfl]
    simp only [statisticsOf, IoStatisticsSet.statistics, hfind] at hold
    simp only [hfind, h.disabled, Bool.false_eq_true, if_false]
    refine h.step (fun id => ?_) rfl h.disabled.symm hold
    simp only [IoStatisticsSet.statistics, OrderedMap.find_emplace hnone, OrderedMap.find_erase]
    by_cases hid : id = devDesc.id <;> simp [Call.device, hid]
  | none =>
    simp only [statisticsOf, IoStatisticsSet.statistics, hfind] at hold
    simp only [hfind, getIoStatistics]
    refine h.step (fun id => ?_) rfl rfl hold
    simp only [IoStatisticsSet.statistics, OrderedMap.find_emplace hfind]
    by_cases hid : id = devDesc.id <;> simp [Call.device, hid, h.setting]

/-- Counting in the set is counting in the statistics of the device. -/
theorem Separates.count_eq (h : Separates rangeSize calls s) (event : ParsedEvent) :
    ∃ put : IoStatistics → IoStatisticsSet,
      s.count event = ((s.statisticsOf rangeSize event.device.id).count event).map put ∧
      ∀ stats, (put stats).lbaHitRangeSize = s.lbaHitRangeSize ∧
        (put stats).lbaHistEnabled = s.lbaHistEnabled ∧
        ∀ id, (put stats).statistics id =
          if id = event.device.id then some stats else s.statistics id := by
  obtain ⟨entry, map, hget, hentry, hothers⟩ : ∃ entry map,
      s.getIoStatistics ⟨event.device.id, 0, "", ""⟩ = (entry, { s with map := map }) ∧
      entry.2 = s.statisticsOf rangeSize event.device.id ∧
      ∀ id ≠ event.device.id, map.find id = s.map.find id := by
    unfold getIoStatistics statisticsOf IoStatisticsSet.statistics
    cases hfind : s.map.find event.device.id with
    | some entry => exact ⟨entry, s.map, rfl, rfl, fun _ _ => rfl⟩
    | none =>
      refine ⟨_, _, rfl, by rw [h.setting]; rfl, fun id hne => ?_⟩
      rw [OrderedMap.find_emplace hfind, if_neg hne]
  refine ⟨fun stats => { s with map := map.alter event.device.id fun _ => (entry.1, stats) }, ?_,
    fun stats => ⟨rfl, rfl, fun id => ?_⟩⟩
  · unfold IoStatisticsSet.count
    simp only [hget, hentry]
    cases (s.statisticsOf rangeSize event.device.id).count event <;> rfl
  · simp only [IoStatisticsSet.statistics, OrderedMap.find_alter]
    by_cases hid : id = event.device.id
    · simp [hid]
    · simp [hid, hothers id hid]

theorem counted_count (event : ParsedEvent) :
    counted event.device.id (calls ++ [.count event]) = counted event.device.id calls ++
      [event] := by
  rw [counted_append]
  simp [counted]

theorem Separates.countAll_counted (h : Separates rangeSize calls s) (event : ParsedEvent) :
    countAll (counted event.device.id (calls ++ [.count event])) (.new rangeSize) =
      (s.statisticsOf rangeSize event.device.id).count event := by
  rw [counted_count, countAll_append, h.statistics]
  rfl

theorem Separates.next (h : Separates rangeSize calls s) (hok : call.step s = .ok s') :
    Separates rangeSize (calls ++ [call]) s' := by
  cases call with
  | addDevice devDesc =>
    obtain rfl := Except.ok.inj hok
    exact h.addDevice devDesc
  | count event =>
    obtain ⟨put, hcount, hput⟩ := h.count_eq event
    have hall := h.countAll_counted event
    replace hok : s.count event = .ok s' := hok
    rw [hcount] at hok
    cases hstats : (s.statisticsOf rangeSize event.device.id).count event with
    | error failure =>
      rw [hstats] at hok
      cases hok
    | ok stats =>
      rw [hstats] at hok
      obtain rfl := Except.ok.inj hok
      obtain ⟨hsetting, hdisabled, hstatistics⟩ := hput stats
      exact h.step hstatistics hsetting hdisabled (hall.trans hstats)

theorem separates_run (h : run calls (new rangeSize) = .ok s) : Separates rangeSize calls s := by
  induction calls using List.reverseRecOn generalizing s with
  | nil =>
    obtain rfl := Except.ok.inj h
    exact separates_new rangeSize
  | append_singleton calls call ih =>
    rw [run_append] at h
    obtain ⟨s₁, hok, hstep⟩ := ok_of_bind h
    exact (ih hok).next hstep

/-- The calls succeed when the events of each device can be counted on their own. -/
theorem exists_run_of_countAll
    (h : ∀ id, ∃ stats, countAll (counted id calls) (.new rangeSize) = .ok stats) :
    ∃ s, run calls (new rangeSize) = .ok s := by
  induction calls using List.reverseRecOn with
  | nil => exact ⟨_, rfl⟩
  | append_singleton calls call ih =>
    have hbefore : ∀ id, ∃ stats, countAll (counted id calls) (.new rangeSize) = .ok stats := by
      intro id
      obtain ⟨stats, hstats⟩ := h id
      by_cases hother : call.device = id
      · cases call with
        | addDevice devDesc =>
          rw [counted_append] at hstats
          exact ⟨stats, (List.append_nil (counted id calls)) ▸ hstats⟩
        | count event =>
          subst hother
          replace hstats : countAll (counted event.device.id (calls ++ [.count event]))
            (.new rangeSize) = .ok stats := hstats
          rw [counted_count, countAll_append] at hstats
          obtain ⟨stats₁, hok, -⟩ := ok_of_bind hstats
          exact ⟨stats₁, hok⟩
      · rw [counted_append, counted_other hother, List.append_nil] at hstats
        exact ⟨stats, hstats⟩
    obtain ⟨s, hok⟩ := ih hbefore
    have hs := separates_run hok
    rw [run_append, hok]
    cases call with
    | addDevice devDesc => exact ⟨_, rfl⟩
    | count event =>
      obtain ⟨put, hcount, -⟩ := hs.count_eq event
      obtain ⟨stats, hstats⟩ := h event.device.id
      rw [hs.countAll_counted] at hstats
      refine ⟨put stats, ?_⟩
      change s.count event = _
      rw [hcount, hstats]
      rfl

end IoStatisticsSet

end Octf.Analytics
