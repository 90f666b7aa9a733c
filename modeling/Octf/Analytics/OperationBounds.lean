import Octf.Analytics.IoStatisticsReport

/-! Operations of any 32-bit value in an event. The check of `count` lets the number of the known
operations and the negative values through to the array of the records. -/
namespace Octf.Analytics
open Foundation Octf.Parser

/-- The number of the known operations. -/
def IoType_ARRAYSIZE : ℕ := 4

/-- The operation whose record has an index in the array. -/
def ioTypeAt : ℕ → Option IoType
  | 0 => some .UnknownIoType
  | 1 => some .Read
  | 2 => some .Write
  | 3 => some .Discard
  | _ => none

/-- A parsed event, whose IO may have an operation that is not known. -/
structure RawEvent where
  event : ParsedEvent
  operation : BitVec 32

namespace RawEvent

/-- `event.io().operation()`, which is zero in an event without IO. -/
def type (raw : RawEvent) : ℤ := if raw.event.io.isSome then raw.operation.toInt else 0

/-- The event with a known operation. -/
def known (type : IoType) (raw : RawEvent) : ParsedEvent :=
  { raw.event with io := raw.event.io.map fun io => { io with operation := type } }

/-- The value is one of the enumeration. -/
def Known (raw : RawEvent) : Prop := 0 ≤ raw.type ∧ raw.type < IoType_ARRAYSIZE

theorem bounds (raw : RawEvent) : -2 ^ 31 ≤ raw.type ∧ raw.type < 2 ^ 31 := by
  unfold type
  split_ifs
  · exact ⟨raw.operation.le_toInt, raw.operation.toInt_lt⟩
  · decide

end RawEvent

namespace IoStatistics

/-- How `count` ends. -/
inductive CountResult where
  /-- It has gone on with the record of the operation. -/
  | counted (result : Except Failure IoStatistics)
  | thrown (message : String) (s : IoStatistics)
  | outOfBounds (index : ℕ)

/-- `&m_statistics[type]`, with the index that the value has as a `size_t`. -/
def statisticsIndex (raw : RawEvent) : ℕ := (raw.type % 2 ^ 64).toNat

/-- `count`, where the operation can have any value. -/
def countRaw (raw : RawEvent) (s : IoStatistics) : CountResult :=
  let size : ℤ := IoType_ARRAYSIZE
  if size < raw.type then .thrown "Invalid IO type" s
  else
    match ioTypeAt (statisticsIndex raw) with
    | none => .outOfBounds (statisticsIndex raw)
    | some type => .counted (s.count (raw.known type))

/-- No access leaves the array, and an operation that is not known changes nothing. -/
structure Atomic (raw : RawEvent) (s : IoStatistics) : Prop where
  inBounds : ∀ index, s.countRaw raw ≠ .outOfBounds index
  unknown : ¬ raw.Known → ∃ message, s.countRaw raw = .thrown message s

variable {raw : RawEvent} {s : IoStatistics}

theorem ioTypeAt_eq_none {index : ℕ} : ioTypeAt index = none ↔ IoType_ARRAYSIZE ≤ index := by
  match index with
  | 0 | 1 | 2 | 3 => decide
  | index + 4 => exact ⟨fun _ => Nat.le_add_left .., fun _ => rfl⟩

theorem countRaw_of_known (h : raw.Known) :
    ∃ type, ioTypeAt raw.type.toNat = some type ∧
      s.countRaw raw = .counted (s.count (raw.known type)) := by
  have hindex : statisticsIndex raw = raw.type.toNat := by
    have hlt : raw.type < 2 ^ 64 := h.2.trans (by decide)
    unfold statisticsIndex
    rw [Int.emod_eq_of_lt h.1 hlt]
  cases htype : ioTypeAt raw.type.toNat with
  | none =>
    have hle := ioTypeAt_eq_none.mp htype
    have hsize : (IoType_ARRAYSIZE : ℤ) = 4 := rfl
    obtain ⟨hnonneg, hlt⟩ := h
    omega
  | some type =>
    refine ⟨type, rfl, ?_⟩
    unfold countRaw
    rw [hindex, htype]
    exact if_neg h.2.not_gt

theorem countRaw_of_large (h : (IoType_ARRAYSIZE : ℤ) < raw.type) :
    s.countRaw raw = .thrown "Invalid IO type" s := if_pos h

/-- The check misses the first value behind the known ones, and those below zero. -/
theorem countRaw_of_missed (h : raw.type < 0 ∨ raw.type = IoType_ARRAYSIZE) :
    s.countRaw raw = .outOfBounds (statisticsIndex raw) := by
  have hbounds := raw.bounds
  have hsize : (IoType_ARRAYSIZE : ℤ) = 4 := rfl
  have hindex : IoType_ARRAYSIZE ≤ statisticsIndex raw := by
    unfold statisticsIndex IoType_ARRAYSIZE
    omega
  unfold countRaw
  rw [ioTypeAt_eq_none.mpr hindex]
  exact if_neg (by omega)

/-- Every call is atomic whose operation is neither negative nor the number of the known ones. -/
theorem atomic_iff (raw : RawEvent) (s : IoStatistics) :
    Atomic raw s ↔ 0 ≤ raw.type ∧ raw.type ≠ IoType_ARRAYSIZE := by
  constructor
  · intro hatomic
    by_contra hmissed
    have hmissed' : raw.type < 0 ∨ raw.type = IoType_ARRAYSIZE := by
      by_cases hneg : raw.type < 0
      · exact Or.inl hneg
      · exact Or.inr (not_not.mp fun hne => hmissed ⟨not_lt.mp hneg, hne⟩)
    exact hatomic.inBounds _ (countRaw_of_missed hmissed')
  · rintro ⟨hnonneg, hne⟩
    by_cases hlt : raw.type < IoType_ARRAYSIZE
    · have hknown : raw.Known := ⟨hnonneg, hlt⟩
      obtain ⟨type, -, hcount⟩ := countRaw_of_known (s := s) hknown
      exact ⟨fun index h => (nomatch hcount.symm.trans h), fun hnot => absurd hknown hnot⟩
    · have hlarge := countRaw_of_large (s := s) (lt_of_le_of_ne (not_lt.mp hlt) hne.symm)
      exact ⟨fun index h => (nomatch hlarge.symm.trans h), fun _ => ⟨_, hlarge⟩⟩

/-- An operation of the value four. -/
theorem countRaw_outOfBounds :
    ¬ Atomic ⟨readAt 0, 4⟩ (new 8) ∧ (new 8).countRaw ⟨readAt 0, 4⟩ = .outOfBounds 4 := by
  have htype : (RawEvent.mk (readAt 0) 4).type = IoType_ARRAYSIZE := by decide
  have hmissed := countRaw_of_missed (s := new 8) (Or.inr htype)
  exact ⟨fun hatomic => hatomic.inBounds _ hmissed, hmissed⟩

end IoStatistics

end Octf.Analytics
