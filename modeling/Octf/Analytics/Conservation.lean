import Octf.Analytics.IoStatistics

/-! The total of the statistics is the sum of its parts: whatever an event adds to the record it
belongs to, it adds to the total. -/
namespace Octf.Analytics
open Foundation Octf.Parser

/-- The counters of a record that are added up. -/
inductive Counter where
  | count
  | errors
  /-- The number and the sum of the values. -/
  | number (kind : Kind)
  | total (kind : Kind)
  /-- The same for one range of the histogram. -/
  | numberAt (kind : Kind) (level range : ℕ)
  | totalAt (kind : Kind) (level range : ℕ)
  | lbaHits (rangeBegin : ℕ)

namespace Counter

def value (c : Counter) (s : Stats) : ℕ :=
  match c with
  | .count => s.count
  | .errors => s.errors
  | .number kind => (s.distribution kind).count
  | .total kind => (s.distribution kind).total
  | .numberAt kind level range => (s.distribution kind).countAt level range
  | .totalAt kind level range => (s.distribution kind).sumAt level range
  | .lbaHits rangeBegin => (s.lbaHitMap.find rangeBegin).getD 0

/-- Sums are 64-bit words. -/
def wrap (c : Counter) (n : ℕ) : ℕ :=
  match c with
  | .total _ | .totalAt _ _ _ => n % 2 ^ 64
  | _ => n

variable {c : Counter}

theorem wrap_zero : c.wrap 0 = 0 := by cases c <;> rfl

theorem wrap_wrap_add (m n : ℕ) : c.wrap (c.wrap m + n) = c.wrap (m + n) := by
  cases c <;> first | rfl | exact Nat.mod_add_mod m _ n

theorem wrap_wrap (n : ℕ) : c.wrap (c.wrap n) = c.wrap n := wrap_wrap_add n 0

theorem wrap_add_wrap (m n : ℕ) : c.wrap (m + c.wrap n) = c.wrap (m + n) := by
  rw [Nat.add_comm, wrap_wrap_add, Nat.add_comm]

end Counter

/-- The ranges of the distributions of a record. -/
def Kind.ranges : Kind → ℕ
  | .size => 256
  | .latency => 1
  | .qd => 128

namespace Stats

variable {s : Stats} {kind : Kind} {d : Distribution}

/-- The distributions are those the record was made with, and the sums are words. -/
structure Valid (s : Stats) : Prop where
  wellFormed : ∀ kind, (s.distribution kind).WellFormed
  base : ∀ kind, (s.distribution kind).base = 2
  ranges : ∀ kind, (s.distribution kind).ranges = kind.ranges
  wrap : ∀ c : Counter, c.wrap (c.value s) = c.value s

theorem value_new (c : Counter) (rangeSize : ℕ) : c.value (new rangeSize) = 0 := by
  cases c with
  | count => rfl
  | errors => rfl
  | number kind => cases kind <;> rfl
  | total kind => cases kind <;> rfl
  | numberAt kind level range => cases kind <;> rfl
  | totalAt kind level range => cases kind <;> rfl
  | lbaHits rangeBegin => rfl

theorem part_enableLbaHistogram (s : IoStatistics) (p : Part) :
    s.enableLbaHistogram.part p = s.part p := by cases p <;> rfl

theorem valid_new (rangeSize : ℕ) : (new rangeSize).Valid where
  wellFormed kind level bucket h := by cases kind <;> cases h
  base kind := by cases kind <;> rfl
  ranges kind := by cases kind <;> rfl
  wrap c := by rw [value_new, Counter.wrap_zero]

theorem distribution_setDistribution (s : Stats) (kind kind' : Kind) (d : Distribution) :
    (s.setDistribution kind d).distribution kind' =
      if kind' = kind then d else s.distribution kind' := by
  cases kind <;> cases kind' <;> rfl

end Stats

/-- The record has grown by the given amounts. -/
structure Grows (δ : Counter → ℕ) (s s' : Stats) : Prop where
  valid : s'.Valid
  value : ∀ c : Counter, c.value s' = c.wrap (c.value s + δ c)

namespace Grows

variable {δ ε : Counter → ℕ} {s s' s'' : Stats}

theorem trans (h : Grows δ s s') (h' : Grows ε s' s'') : Grows (fun c => δ c + ε c) s s'' := by
  refine ⟨h'.valid, fun c => ?_⟩
  rw [h'.value, h.value, Counter.wrap_wrap_add, Nat.add_assoc]

/-- For records that keep their distributions. -/
theorem of_distribution (hs : s.Valid) (hkeep : ∀ kind, s'.distribution kind = s.distribution kind)
    (hvalue : ∀ c : Counter, c.value s' = c.wrap (c.value s + δ c)) : Grows δ s s' where
  valid :=
    { wellFormed := fun kind => hkeep kind ▸ hs.wellFormed kind
      base := fun kind => hkeep kind ▸ hs.base kind
      ranges := fun kind => hkeep kind ▸ hs.ranges kind
      wrap := fun c => by rw [hvalue, Counter.wrap_wrap] }
  value := hvalue

theorem value_eq_of_unchanged (hs : s.Valid) {c : Counter} (hvalue : c.value s' = c.value s)
    {d : ℕ} (hd : d = 0) : c.value s' = c.wrap (c.value s + d) := by
  rw [hvalue, hd, Nat.add_zero, hs.wrap]

theorem refl (hs : s.Valid) : Grows (fun _ => 0) s s :=
  of_distribution hs (fun _ => rfl) fun c => (hs.wrap c).symm

theorem unchanged (h : Grows (fun _ => 0) s s') (hs : s.Valid) (c : Counter) :
    c.value s' = c.value s := (h.value c).trans (hs.wrap c)

theorem updateWc (hs : s.Valid) (op : WorksetCalculator.Op) :
    Grows (fun _ => 0) s (s.updateWc op) := by
  refine of_distribution hs (fun kind => by cases kind <;> rfl) fun c =>
    value_eq_of_unchanged hs ?_ rfl
  cases c <;> rfl

end Grows

/-! ### What the parts of `count` add -/

/-- What hits of ranges add. -/
def hitGrowth (ranges : List ℕ) : Counter → ℕ
  | .lbaHits rangeBegin => ranges.count rangeBegin
  | _ => 0

/-- What a value adds to the counters of its distribution. -/
def valueGrowth (kind : Kind) (x : ℕ) : Counter → ℕ
  | .number kind' => if kind' = kind then 1 else 0
  | .total kind' => if kind' = kind then x else 0
  | .numberAt kind' level range =>
    if kind' = kind ∧ Distribution.place kind.ranges x = some (level, range) then 1 else 0
  | .totalAt kind' level range =>
    if kind' = kind ∧ Distribution.place kind.ranges x = some (level, range) then x else 0
  | _ => 0

def errorGrowth (error : Bool) : Counter → ℕ
  | .errors => error.toNat
  | _ => 0

def countGrowth : Counter → ℕ
  | .count => 1
  | _ => 0

namespace Grows

variable {s : Stats}

theorem hit (hs : s.Valid) (k : ℕ) : Grows (hitGrowth [k]) s (s.hit k) := by
  refine of_distribution hs (fun kind => by cases kind <;> rfl) fun c => ?_
  cases c with
  | lbaHits rangeBegin =>
    change ((s.lbaHitMap.alter k _).find rangeBegin).getD 0 = _
    rw [OrderedMap.find_alter]
    by_cases hk : rangeBegin = k
    · simp [hitGrowth, Counter.wrap, Counter.value, hk]
    · simp [hitGrowth, Counter.wrap, Counter.value, hk, eq_comm (a := k)]
  | _ => refine value_eq_of_unchanged hs ?_ ?_ <;> rfl

theorem hits (hs : s.Valid) (ranges : List ℕ) :
    Grows (hitGrowth ranges) s (ranges.foldl (fun s k => s.hit k) s) := by
  induction ranges generalizing s with
  | nil =>
    refine of_distribution hs (fun _ => rfl) fun c => value_eq_of_unchanged hs rfl ?_
    cases c <;> rfl
  | cons k ranges ih =>
    have hfirst := hit hs k
    have hboth := hfirst.trans (ih hfirst.valid)
    refine ⟨hboth.valid, fun c => ?_⟩
    rw [List.foldl_cons, hboth.value]
    congr 2
    cases c with
    | lbaHits rangeBegin => simp [hitGrowth, List.count_cons, Nat.add_comm]
    | _ => rfl

theorem setDistribution (hs : s.Valid) {kind : Kind} {x : ℕ} {d : Distribution}
    (hadds : Distribution.Adds x (s.distribution kind) d) :
    Grows (valueGrowth kind x) s (s.setDistribution kind d) := by
  have hranges := hs.ranges kind
  have hvalue : ∀ c : Counter,
      c.value (s.setDistribution kind d) = c.wrap (c.value s + valueGrowth kind x c) := by
    intro c
    cases c with
    | count => cases kind <;> rfl
    | errors => cases kind <;> rfl
    | lbaHits rangeBegin => cases kind <;> rfl
    | number kind' =>
      simp only [Counter.value, Counter.wrap, valueGrowth, Stats.distribution_setDistribution]
      split_ifs with h
      · rw [h, hadds.count]
      · rfl
    | total kind' =>
      simp only [Counter.value, Counter.wrap, valueGrowth, Stats.distribution_setDistribution]
      split_ifs with h
      · rw [h, hadds.total, add64]
      · exact (hs.wrap (.total kind')).symm
    | numberAt kind' level range =>
      simp only [Counter.value, Counter.wrap, valueGrowth, Stats.distribution_setDistribution]
      by_cases h : kind' = kind
      · simp only [h, if_true, true_and, hadds.countAt, hranges]
        split_ifs <;> rfl
      · simp only [h, if_false, false_and, Nat.add_zero]
    | totalAt kind' level range =>
      have hword := hs.wrap (.totalAt kind' level range)
      simp only [Counter.value, Counter.wrap, valueGrowth,
        Stats.distribution_setDistribution] at hword ⊢
      by_cases h : kind' = kind
      · subst h
        simp only [if_true, true_and, hadds.sumAt, hranges]
        split_ifs
        · rfl
        · exact hword.symm
      · simp only [h, if_false, false_and, Nat.add_zero]
        exact hword.symm
  refine ⟨⟨fun kind' => ?_, fun kind' => ?_, fun kind' => ?_, fun c => ?_⟩, hvalue⟩
  · rw [Stats.distribution_setDistribution]
    split_ifs
    · exact hadds.wellFormed
    · exact hs.wellFormed kind'
  · rw [Stats.distribution_setDistribution]
    split_ifs
    · exact hadds.base.trans (hs.base kind)
    · exact hs.base kind'
  · rw [Stats.distribution_setDistribution]
    split_ifs with h
    · rw [h, hadds.ranges, hranges]
    · exact hs.ranges kind'
  · rw [hvalue, Counter.wrap_wrap]

/-- The record counts one more error, or one more IO. -/
theorem errors (hs : s.Valid) (error : Bool) :
    Grows (errorGrowth error) s { s with errors := s.errors + error.toNat } := by
  refine of_distribution hs (fun kind => by cases kind <;> rfl) fun c => ?_
  cases c with
  | errors => rfl
  | _ => refine value_eq_of_unchanged hs ?_ ?_ <;> rfl

theorem count (hs : s.Valid) : Grows countGrowth s { s with count := s.count + 1 } := by
  refine of_distribution hs (fun kind => by cases kind <;> rfl) fun c => ?_
  cases c with
  | count => rfl
  | _ => refine value_eq_of_unchanged hs ?_ ?_ <;> rfl

end Grows

/-- Both records of an event grow alike. -/
structure GrowAlike (δ : Counter → ℕ) (records records' : Stats × Stats) : Prop where
  stats : Grows δ records.1 records'.1
  total : Grows δ records.2 records'.2

namespace GrowAlike

variable {δ ε : Counter → ℕ} {records records' records'' : Stats × Stats}

theorem refl (hstats : records.1.Valid) (htotal : records.2.Valid) :
    GrowAlike (fun _ => 0) records records := ⟨.refl hstats, .refl htotal⟩

theorem trans (h : GrowAlike δ records records') (h' : GrowAlike ε records' records'') :
    GrowAlike (fun c => δ c + ε c) records records'' :=
  ⟨h.stats.trans h'.stats, h.total.trans h'.total⟩

end GrowAlike

namespace IoStatistics

variable {records : Stats × Stats} {io : ParsedIo}

/-- What the hits of an IO add. -/
def lbaGrowth (enabled : Bool) (rangeSize : ℕ) (io : ParsedIo) : Counter → ℕ :=
  if enabled = true ∧ io.len ≠ 0 then hitGrowth (spannedRanges rangeSize io) else fun _ => 0

/-- What a value adds; zero is not counted. -/
def nonzeroGrowth (kind : Kind) (x : ℕ) : Counter → ℕ :=
  if x ≠ 0 then valueGrowth kind x else fun _ => 0

@[simp] theorem bind_ok {α β : Type} (a : α) (f : α → Except Failure β) :
    (Except.ok a >>= f) = f a := rfl

theorem foldl_pair (ranges : List ℕ) (records : Stats × Stats) :
    ranges.foldl (fun records k => (records.1.hit k, records.2.hit k)) records =
      (ranges.foldl (fun s k => s.hit k) records.1,
        ranges.foldl (fun s k => s.hit k) records.2) := by
  induction ranges generalizing records with
  | nil => rfl
  | cons k ranges ih => rw [List.foldl_cons, ih]; rfl

/-- A failed update of the hits is a division by zero. -/
theorem countLbaHits_spec (enabled : Bool) (rangeSize : ℕ) (io : ParsedIo)
    (hstats : records.1.Valid) (htotal : records.2.Valid) :
    (rangeSize = 0 ∧ countLbaHits enabled rangeSize io records = .error .divisionByZero) ∨
      ∃ records', countLbaHits enabled rangeSize io records = .ok records' ∧
        GrowAlike (lbaGrowth enabled rangeSize io) records records' := by
  unfold countLbaHits lbaGrowth
  split_ifs with hcounted hzero
  · exact Or.inl ⟨hzero, rfl⟩
  · refine Or.inr ⟨_, rfl, ?_⟩
    rw [foldl_pair]
    exact ⟨.hits hstats _, .hits htotal _⟩
  · exact Or.inr ⟨_, rfl, .refl hstats htotal⟩

theorem countValue_spec (hstats : records.1.Valid) (htotal : records.2.Valid) (kind : Kind)
    {x : ℕ} (hx : x < 2 ^ 53) :
    ∃ records', countValue kind x records = .ok records' ∧
      GrowAlike (nonzeroGrowth kind x) records records' := by
  have hranges : 0 < kind.ranges ∧ kind.ranges ≤ 2 ^ 10 := by cases kind <;> decide
  have hadd : ∀ {s : Stats}, s.Valid → ∃ d, (s.distribution kind).add x = .ok d ∧
      Distribution.Adds x (s.distribution kind) d := fun hs =>
    Distribution.add_spec (hs.wellFormed kind) (hs.base kind) (hs.ranges kind ▸ hranges) hx
  unfold countValue nonzeroGrowth
  split_ifs
  · obtain ⟨total, htotalAdd, htotalAdds⟩ := hadd htotal
    obtain ⟨stats, hstatsAdd, hstatsAdds⟩ := hadd hstats
    rw [htotalAdd, hstatsAdd]
    exact ⟨_, rfl, .setDistribution hstats hstatsAdds, .setDistribution htotal htotalAdds⟩
  · exact ⟨_, rfl, .refl hstats htotal⟩

theorem countError_spec (hstats : records.1.Valid) (htotal : records.2.Valid) (error : Bool) :
    GrowAlike (errorGrowth error) records (countError error records) := by
  cases error with
  | false => exact ⟨.errors hstats false, .errors htotal false⟩
  | true => exact ⟨.errors hstats true, .errors htotal true⟩

/-- What an IO adds to the record it belongs to and to the total, the number of IOs apart. -/
def recordGrowth (enabled : Bool) (rangeSize : ℕ) (io : ParsedIo) : Counter → ℕ := fun c =>
  lbaGrowth enabled rangeSize io c + nonzeroGrowth .latency io.latency c +
    nonzeroGrowth .qd io.qd c + errorGrowth io.error c + nonzeroGrowth .size io.len c

/-- The values of an IO for which the distributions are exact. -/
structure Bounded (io : ParsedIo) : Prop where
  latency : io.latency < 2 ^ 53
  qd : io.qd < 2 ^ 53
  len : io.len < 2 ^ 53

theorem countRecords_spec (enabled : Bool) (rangeSize : ℕ) (records : Stats × Stats)
    (hstats : records.1.Valid) (htotal : records.2.Valid) (hio : Bounded io) :
    (rangeSize = 0 ∧ countRecords enabled rangeSize io records = .error .divisionByZero) ∨
      ∃ records', countRecords enabled rangeSize io records = .ok records' ∧
        GrowAlike (recordGrowth enabled rangeSize io) records records' := by
  unfold countRecords
  rcases countLbaHits_spec enabled rangeSize io hstats htotal with
    ⟨hzero, herror⟩ | ⟨r₁, hr₁, hgrow₁⟩
  · exact Or.inl ⟨hzero, by rw [herror]; rfl⟩
  · obtain ⟨r₂, hr₂, hgrow₂⟩ :=
      countValue_spec hgrow₁.stats.valid hgrow₁.total.valid .latency hio.latency
    obtain ⟨r₃, hr₃, hgrow₃⟩ := countValue_spec hgrow₂.stats.valid hgrow₂.total.valid .qd hio.qd
    have hgrow₄ := countError_spec hgrow₃.stats.valid hgrow₃.total.valid io.error
    obtain ⟨r₅, hr₅, hgrow₅⟩ :=
      countValue_spec hgrow₄.stats.valid hgrow₄.total.valid .size hio.len
    refine Or.inr ⟨r₅, ?_, (((hgrow₁.trans hgrow₂).trans hgrow₃).trans hgrow₄).trans hgrow₅⟩
    rw [hr₁, bind_ok, hr₂, bind_ok, hr₃, bind_ok, hr₅]

variable {s s' : IoStatistics}

@[simp] theorem part_setPart (s : IoStatistics) (p p' : Part) (stats : Stats) :
    (s.setPart p stats).part p' = if p' = p then stats else s.part p' := by
  cases p <;> cases p' <;> simp [setPart, part, Function.update_apply]

@[simp] theorem total_setPart (s : IoStatistics) (p : Part) (stats : Stats) :
    (s.setPart p stats).total = s.total := by cases p <;> rfl

/-- All records are valid. -/
structure Valid (s : IoStatistics) : Prop where
  total : s.total.Valid
  part : ∀ p, (s.part p).Valid

theorem part_enableLbaHistogram (s : IoStatistics) (p : Part) :
    s.enableLbaHistogram.part p = s.part p := by cases p <;> rfl

theorem valid_new (rangeSize : ℕ) : (new rangeSize).Valid where
  total := Stats.valid_new rangeSize
  part p := by cases p <;> exact Stats.valid_new rangeSize

/-- Working sets are no counters. -/
theorem updateWorksets_spec (hs : s.Valid) (io : ParsedIo) :
    Grows (fun _ => 0) s.total (s.updateWorksets io).total ∧
      ∀ p, Grows (fun _ => 0) (s.part p) ((s.updateWorksets io).part p) := by
  unfold updateWorksets
  split_ifs with hlen hdiscard
  · exact ⟨.refl hs.total, fun p => .refl (hs.part p)⟩
  · refine ⟨.updateWc hs.total _, fun p => ?_⟩
    cases p with
    | operation type =>
      by_cases htype : type = .Discard
      · simpa [part, htype] using Grows.updateWc (hs.part (.operation .Discard)) _
      · simpa [part, htype] using Grows.updateWc (hs.part (.operation type)) _
    | flush => exact .refl (hs.part .flush)
  · refine ⟨.updateWc hs.total _, fun p => ?_⟩
    cases p with
    | operation type =>
      by_cases htype : type = io.operation
      · simpa [part, htype] using Grows.updateWc (hs.part (.operation io.operation)) _
      · simpa [part, htype] using Grows.refl (hs.part (.operation type))
    | flush => exact .refl (hs.part .flush)

/-- What an IO adds to the record it belongs to and to the total. -/
def ioGrowth (enabled : Bool) (rangeSize : ℕ) (io : ParsedIo) : Counter → ℕ := fun c =>
  recordGrowth enabled rangeSize io c + countGrowth c

/-- No part but the last counts the IO. -/
theorem ioGrowth_count (enabled : Bool) (rangeSize : ℕ) (io : ParsedIo) :
    ioGrowth enabled rangeSize io .count = 1 := by
  have hvalue : ∀ kind x, nonzeroGrowth kind x .count = 0 := by
    intro kind x
    unfold nonzeroGrowth
    split_ifs <;> rfl
  have hlba : lbaGrowth enabled rangeSize io .count = 0 := by
    unfold lbaGrowth
    split_ifs <;> rfl
  simp only [ioGrowth, recordGrowth, hvalue, hlba, errorGrowth, countGrowth]

/-- What counting an IO does. -/
structure Counted (io : ParsedIo) (s s' : IoStatistics) : Prop where
  total : Grows (ioGrowth s.lbaHistEnabled s.lbaHistRangeSize io) s.total s'.total
  part : Grows (ioGrowth s.lbaHistEnabled s.lbaHistRangeSize io) (s.part (partOf io))
    (s'.part (partOf io))
  others : ∀ p ≠ partOf io, Grows (fun _ => 0) (s.part p) (s'.part p)
  enabled : s'.lbaHistEnabled = s.lbaHistEnabled
  rangeSize : s'.lbaHistRangeSize = s.lbaHistRangeSize

theorem Counted.valid (h : Counted io s s') : s'.Valid where
  total := h.total.valid
  part p := by
    by_cases hp : p = partOf io
    · exact hp ▸ h.part.valid
    · exact (h.others p hp).valid

theorem settings_setPart (s : IoStatistics) (p : Part) (stats : Stats) :
    (s.setPart p stats).lbaHistEnabled = s.lbaHistEnabled ∧
      (s.setPart p stats).lbaHistRangeSize = s.lbaHistRangeSize := by
  cases p <;> exact ⟨rfl, rfl⟩

theorem settings_updateWorksets (s : IoStatistics) (io : ParsedIo) :
    (s.updateWorksets io).lbaHistEnabled = s.lbaHistEnabled ∧
      (s.updateWorksets io).lbaHistRangeSize = s.lbaHistRangeSize := by
  unfold updateWorksets
  split_ifs <;> exact ⟨rfl, rfl⟩

theorem settings_store (io : ParsedIo) (records : Stats × Stats) (s : IoStatistics) :
    (s.store io records).lbaHistEnabled = s.lbaHistEnabled ∧
      (s.store io records).lbaHistRangeSize = s.lbaHistRangeSize := by
  let placed := { s with total := records.2 }.setPart (partOf io) records.1
  have hplaced := settings_setPart { s with total := records.2 } (partOf io) records.1
  have hsets := settings_updateWorksets placed io
  unfold store
  exact ⟨(settings_setPart _ _ _).1.trans (hsets.1.trans hplaced.1),
    (settings_setPart _ _ _).2.trans (hsets.2.trans hplaced.2)⟩

theorem store_spec (hs : s.Valid)
    (hrecords : GrowAlike (recordGrowth s.lbaHistEnabled s.lbaHistRangeSize io)
      (s.part (partOf io), s.total) records) : Counted io s (s.store io records) := by
  let placed := { s with total := records.2 }.setPart (partOf io) records.1
  have hpart : ∀ p, placed.part p = if p = partOf io then records.1 else s.part p := by
    intro p
    rw [part_setPart]
    cases p <;> rfl
  have htotal : placed.total = records.2 := by rw [total_setPart]
  have hplaced : placed.Valid := by
    refine ⟨htotal ▸ hrecords.total.valid, fun p => ?_⟩
    rw [hpart]
    split_ifs
    · exact hrecords.stats.valid
    · exact hs.part p
  obtain ⟨hsets, hsetsPart⟩ := updateWorksets_spec hplaced io
  have hsettings := settings_store io records s
  unfold store at hsettings ⊢
  change Counted io s ((({ placed.updateWorksets io with
    total := { (placed.updateWorksets io).total with
      count := (placed.updateWorksets io).total.count + 1 } } : IoStatistics).setPart
    (partOf io)) { (placed.updateWorksets io).part (partOf io) with
      count := ((placed.updateWorksets io).part (partOf io)).count + 1 })
  refine ⟨?_, ?_, fun p hp => ?_, hsettings.1, hsettings.2⟩
  · rw [total_setPart]
    have hgrows : Grows (recordGrowth s.lbaHistEnabled s.lbaHistRangeSize io) s.total
        (placed.updateWorksets io).total :=
      hrecords.total.trans (htotal ▸ hsets)
    exact hgrows.trans (.count hgrows.valid)
  · rw [part_setPart, if_pos rfl]
    have hgrows : Grows (recordGrowth s.lbaHistEnabled s.lbaHistRangeSize io)
        (s.part (partOf io)) ((placed.updateWorksets io).part (partOf io)) := by
      have hset := hsetsPart (partOf io)
      rw [hpart, if_pos rfl] at hset
      exact hrecords.stats.trans hset
    exact hgrows.trans (.count hgrows.valid)
  · rw [part_setPart, if_neg hp]
    have hset := hsetsPart p
    rw [hpart, if_neg hp] at hset
    cases p <;> exact hset

/-- An IO is counted, unless a histogram with empty ranges is updated. -/
theorem count_spec (hs : s.Valid) {event : ParsedEvent} (hio : Bounded (eventIo event)) :
    (s.lbaHistRangeSize = 0 ∧ s.count event = .error .divisionByZero) ∨
      ∃ s', s.count event = .ok s' ∧ Counted (eventIo event) s s' := by
  unfold count
  simp only
  rcases countRecords_spec s.lbaHistEnabled s.lbaHistRangeSize
    (s.part (partOf (eventIo event)), s.total) (hs.part _) hs.total hio with
    ⟨hzero, herror⟩ | ⟨records, hok, hgrow⟩
  · exact Or.inl ⟨hzero, by rw [herror]; rfl⟩
  · refine Or.inr ⟨_, by rw [hok, bind_ok], ?_⟩
    obtain ⟨htotal, hpart, hothers, henabled, hsize⟩ := store_spec hs hgrow
    refine ⟨htotal, ?_, fun p hp => ?_, henabled, hsize⟩
    · cases hp : partOf (eventIo event) <;> exact hp ▸ hpart
    · have hother := hothers p hp
      cases p <;> exact hother

/-! ### Sequences of events -/

/-- The sum of the records of the operations and of the flushes. -/
def sumOfParts (c : Counter) (s : IoStatistics) : ℕ :=
  c.value (s.part (.operation .Read)) + c.value (s.part (.operation .Write)) +
    c.value (s.part (.operation .Discard)) + c.value (s.part .flush)

/-- The total is the sum of the parts, sums of values as 64-bit words. -/
def Conserved (s : IoStatistics) : Prop :=
  ∀ c : Counter, c.value s.total = c.wrap (sumOfParts c s)

/-- The operation of the IO is known, or it is a flush request. -/
def Known (io : ParsedIo) : Prop := partOf io ≠ .operation .UnknownIoType

instance (io : ParsedIo) : Decidable (Known io) := inferInstanceAs (Decidable (_ ≠ _))

theorem sumOfParts_new (c : Counter) (rangeSize : ℕ) : sumOfParts c (new rangeSize) = 0 := by
  simp only [sumOfParts, part, new, Stats.value_new]

/-- All but one record of a known operation keep their values. -/
theorem exists_sumOfParts_eq {p : Part} (hp : p ≠ .operation .UnknownIoType) {c : Counter}
    (hothers : ∀ p' ≠ p, c.value (s'.part p') = c.value (s.part p')) :
    ∃ rest, sumOfParts c s = rest + c.value (s.part p) ∧
      sumOfParts c s' = rest + c.value (s'.part p) := by
  have hread := hothers (.operation .Read)
  have hwrite := hothers (.operation .Write)
  have hdiscard := hothers (.operation .Discard)
  have hflush := hothers .flush
  unfold sumOfParts
  cases p with
  | flush =>
    rw [hread (by decide), hwrite (by decide), hdiscard (by decide)]
    exact ⟨_, rfl, rfl⟩
  | operation type =>
    cases type with
    | UnknownIoType => exact absurd rfl hp
    | Read =>
      rw [hwrite (by decide), hdiscard (by decide), hflush (by decide)]
      exact ⟨c.value (s.part (.operation .Write)) + c.value (s.part (.operation .Discard)) +
        c.value (s.part .flush), by omega, by omega⟩
    | Write =>
      rw [hread (by decide), hdiscard (by decide), hflush (by decide)]
      exact ⟨c.value (s.part (.operation .Read)) + c.value (s.part (.operation .Discard)) +
        c.value (s.part .flush), by omega, by omega⟩
    | Discard =>
      rw [hread (by decide), hwrite (by decide), hflush (by decide)]
      exact ⟨c.value (s.part (.operation .Read)) + c.value (s.part (.operation .Write)) +
        c.value (s.part .flush), by omega, by omega⟩

/-- One record grows, and the sum grows with it. -/
theorem Counted.sumOfParts (h : Counted io s s') (hs : s.Valid) (hknown : Known io) (c : Counter) :
    c.wrap (sumOfParts c s') =
      c.wrap (sumOfParts c s + ioGrowth s.lbaHistEnabled s.lbaHistRangeSize io c) := by
  obtain ⟨rest, hbefore, hafter⟩ := exists_sumOfParts_eq hknown fun p hp =>
    (h.others p hp).unchanged (hs.part p) c
  rw [hbefore, hafter, h.part.value, Counter.wrap_add_wrap, Nat.add_assoc]

theorem Conserved.count (h : s.Conserved) (hs : s.Valid) (hknown : Known io)
    (hcounted : Counted io s s') : s'.Conserved := by
  intro c
  rw [hcounted.total.value, h c, Counter.wrap_wrap_add, hcounted.sumOfParts hs hknown]

inductive Call where
  | count (event : ParsedEvent)
  | enableLbaHistogram

def Call.step (s : IoStatistics) : Call → Except Failure IoStatistics
  | .count event => s.count event
  | .enableLbaHistogram => .ok s.enableLbaHistogram

def run (calls : List Call) (s : IoStatistics) : Except Failure IoStatistics :=
  calls.foldlM Call.step s

/-- The number of the events. -/
def events (calls : List Call) : ℕ := calls.countP fun
  | .count _ => true
  | .enableLbaHistogram => false

/-- The statistics after a call that succeeds, and why one fails. -/
theorem step_spec (hs : s.Valid) (hconserved : s.Conserved) {call : Call}
    (hcall : ∀ event, call = .count event → Known (eventIo event) ∧ Bounded (eventIo event)) :
    (s.lbaHistRangeSize = 0 ∧ call.step s = .error .divisionByZero) ∨
      ∃ s', call.step s = .ok s' ∧ s'.Valid ∧ s'.Conserved ∧
        s'.lbaHistRangeSize = s.lbaHistRangeSize ∧
        s'.total.count = s.total.count + events [call] := by
  cases call with
  | enableLbaHistogram =>
    refine Or.inr ⟨_, rfl, ⟨hs.total, fun p => ?_⟩, hconserved, rfl, rfl⟩
    rw [part_enableLbaHistogram]
    exact hs.part p
  | count event =>
    obtain ⟨hknown, hio⟩ := hcall event rfl
    refine (count_spec hs hio).imp_right fun ⟨s', hok, hcounted⟩ => ?_
    refine ⟨s', hok, hcounted.valid, hconserved.count hs hknown hcounted, hcounted.rangeSize, ?_⟩
    exact (hcounted.total.value .count).trans (congrArg (s.total.count + ·) (ioGrowth_count ..))

theorem run_spec {calls : List Call} (hs : s.Valid) (hconserved : s.Conserved)
    (hcalls : ∀ event, Call.count event ∈ calls →
      Known (eventIo event) ∧ Bounded (eventIo event)) :
    (s.lbaHistRangeSize = 0 ∧ run calls s = .error .divisionByZero) ∨
      ∃ s', run calls s = .ok s' ∧ s'.Conserved ∧
        s'.total.count = s.total.count + events calls := by
  induction calls generalizing s with
  | nil => exact Or.inr ⟨s, rfl, hconserved, rfl⟩
  | cons call calls ih =>
    have hrun : run (call :: calls) s = call.step s >>= run calls := List.foldlM_cons ..
    have hfirst : ∀ event, call = .count event →
        Known (eventIo event) ∧ Bounded (eventIo event) := by
      rintro event rfl
      exact hcalls event List.mem_cons_self
    rcases step_spec hs hconserved hfirst with
      ⟨hzero, herror⟩ | ⟨s₁, hok, hvalid₁, hconserved₁, hsize₁, hcount₁⟩
    · exact Or.inl ⟨hzero, by rw [hrun, herror]; rfl⟩
    · rw [hrun, hok, bind_ok, ← hsize₁]
      refine (ih hvalid₁ hconserved₁ fun event hevent =>
        hcalls event (List.mem_cons_of_mem call hevent)).imp_right
        fun ⟨s', hok', hconserved', hcount'⟩ => ⟨s', hok', hconserved', ?_⟩
      rw [hcount', hcount₁, Nat.add_assoc, events, events, events, ← List.countP_append]
      rfl

/-- After events of known operations and bounded values the total is the sum of the parts, and
it counts the events. -/
theorem conserved_of_run (rangeSize : ℕ) (calls : List Call)
    (hcalls : ∀ event, Call.count event ∈ calls →
      Known (eventIo event) ∧ Bounded (eventIo event)) :
    (∀ s, run calls (new rangeSize) = .ok s → s.Conserved ∧ s.total.count = events calls) ∧
      (0 < rangeSize → ∃ s, run calls (new rangeSize) = .ok s) := by
  have hnew : (new rangeSize).Conserved := by
    intro c
    rw [sumOfParts_new, Counter.wrap_zero]
    exact Stats.value_new c rangeSize
  rcases run_spec (valid_new rangeSize) hnew hcalls with
    ⟨hzero, herror⟩ | ⟨s', hok, hconserved, hcount⟩
  · rw [herror]
    exact ⟨fun s h => (nomatch h), fun hpos => absurd hzero hpos.ne'⟩
  · rw [hok]
    refine ⟨fun s h => ?_, fun _ => ⟨s', rfl⟩⟩
    obtain rfl := Except.ok.inj h
    exact ⟨hconserved, hcount.trans (Nat.zero_add _)⟩

/-- A failed read of twelve sectors, and a flush. -/
def mixedCalls : List Call :=
  [.enableLbaHistogram,
    .count ⟨⟨1, 10⟩, some ⟨4, 12, .Read, true, 7, 1, 0, ⟨false, false, false, false, false⟩⟩,
      ⟨1, "", 0, ""⟩, none, []⟩,
    .count ⟨⟨2, 20⟩, some ⟨0, 0, .Write, false, 9, 1, 0, ⟨true, false, false, false, false⟩⟩,
      ⟨1, "", 0, ""⟩, none, []⟩]

theorem conserved_of_run_mixedCalls :
    ∃ s, run mixedCalls (new 8) = .ok s ∧ s.Conserved ∧ s.total.count = 2 := by
  have hcalls : ∀ event, Call.count event ∈ mixedCalls →
      Known (eventIo event) ∧ Bounded (eventIo event) := by
    intro event hevent
    simp only [mixedCalls, List.mem_cons, Call.count.injEq, reduceCtorEq, List.not_mem_nil,
      false_or, or_false] at hevent
    rcases hevent with rfl | rfl <;> exact ⟨by decide, by decide, by decide, by decide⟩
  obtain ⟨hconserved, hok⟩ := conserved_of_run 8 mixedCalls hcalls
  obtain ⟨s, hs⟩ := hok (by decide)
  exact ⟨s, hs, hconserved s hs⟩

end IoStatistics

end Octf.Analytics
