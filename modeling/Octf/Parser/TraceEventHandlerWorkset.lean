import Octf.Analytics.HighWaterMark
import Octf.Parser.Event

/-! The working set of a trace, which the handler takes from one set of ranges for all devices. -/
namespace Octf.Parser
open Foundation Octf.Analytics

/-- The set of ranges of all devices. -/
structure CasTraceEventHandlerWorkset where
  calculator : WorksetCalculator

namespace CasTraceEventHandlerWorkset

def new : CasTraceEventHandlerWorkset := ⟨.new⟩

def handleEvent (traceEvent : Event) (h : CasTraceEventHandlerWorkset) :
    CasTraceEventHandlerWorkset :=
  match traceEvent.eventType with
  | .io io => { h with calculator := h.calculator.insertRange io.lba io.len }
  | _ => h

def getWorkset (h : CasTraceEventHandlerWorkset) : ℕ := h.calculator.getWorkset

/-- The events of a trace, one after another. -/
def processEvents (events : List Event) (h : CasTraceEventHandlerWorkset) :
    CasTraceEventHandlerWorkset := run handleEvent events h

/-! ### What the handler reports -/

/-- The IO of an event. -/
def ioOf (event : Event) : Option EventIo :=
  match event.eventType with
  | .io io => some io
  | _ => none

/-- The devices with IOs. -/
def devices (events : List Event) : Finset ℕ :=
  (events.filterMap fun event => (ioOf event).map EventIo.deviceId).toFinset

/-- The sectors of a device that its IOs touch. -/
def touched (id : ℕ) (events : List Event) : Set ℕ :=
  {x | ∃ event ∈ events, ∃ io, ioOf event = some io ∧ io.deviceId = id ∧
    x ∈ Set.Ico io.lba (io.lba + io.len)}

/-- The insertions the handler makes. -/
def calls (events : List Event) : List WorksetCalculator.Call :=
  events.filterMap fun event => (ioOf event).map fun io => .change (.insertRange io.lba io.len)

variable {events : List Event}

theorem handleEvent_eq (event : Event) (h : CasTraceEventHandlerWorkset) : handleEvent event h =
    match ioOf event with
    | some io => { h with calculator := h.calculator.insertRange io.lba io.len }
    | none => h := by
  unfold handleEvent ioOf
  cases event.eventType <;> rfl

theorem calculator_processEvents (h : CasTraceEventHandlerWorkset) :
    (processEvents events h).calculator =
      run WorksetCalculator.Call.step (calls events) h.calculator := by
  induction events generalizing h with
  | nil => rfl
  | cons event events ih =>
    refine (ih (handleEvent event h)).trans ?_
    rw [handleEvent_eq, calls, calls, List.filterMap_cons]
    cases ioOf event <;> rfl

theorem mem_devices {id : ℕ} : id ∈ devices events ↔
    ∃ event ∈ events, ∃ io, ioOf event = some io ∧ io.deviceId = id := by
  simp [devices]

theorem mem_inserted_calls {x : ℕ} : x ∈ WorksetCalculator.inserted (calls events) ↔
    ∃ event ∈ events, ∃ io, ioOf event = some io ∧ x ∈ Set.Ico io.lba (io.lba + io.len) := by
  unfold WorksetCalculator.inserted calls
  constructor
  · rintro ⟨call, hcall, hx⟩
    obtain ⟨event, hevent, hmap⟩ := List.mem_filterMap.mp hcall
    obtain ⟨io, hio, rfl⟩ := Option.map_eq_some_iff.mp hmap
    exact ⟨event, hevent, io, hio, hx⟩
  · rintro ⟨event, hevent, io, hio, hx⟩
    exact ⟨_, List.mem_filterMap.mpr ⟨event, hevent, Option.map_eq_some_iff.mpr ⟨io, hio, rfl⟩⟩,
      hx⟩

theorem inserted_calls : WorksetCalculator.inserted (calls events) =
    ⋃ id ∈ devices events, touched id events := by
  ext x
  rw [mem_inserted_calls, Set.mem_iUnion₂]
  constructor
  · rintro ⟨event, hevent, io, hio, hx⟩
    exact ⟨io.deviceId, mem_devices.mpr ⟨event, hevent, io, hio, rfl⟩, event, hevent, io, hio,
      rfl, hx⟩
  · rintro ⟨id, -, event, hevent, io, hio, -, hx⟩
    exact ⟨event, hevent, io, hio, hx⟩

/-- The handler counts a sector number once, whichever devices it was touched on. -/
theorem getWorkset_eq_ncard_iUnion
    (hfits : ∀ event ∈ events, ∀ io, ioOf event = some io → io.lba + io.len < 2 ^ 64) :
    (processEvents events new).getWorkset = (⋃ id ∈ devices events, touched id events).ncard := by
  have hinserts : ∀ call ∈ calls events, call.Inserts := by
    intro call hcall
    obtain ⟨event, hevent, hmap⟩ := List.mem_filterMap.mp hcall
    obtain ⟨io, hio, rfl⟩ := Option.map_eq_some_iff.mp hmap
    exact hfits event hevent io hio
  have hcached := WorksetCalculator.cached_run fun call hcall => (hinserts call hcall).fits
  have hinserted := WorksetCalculator.inserted_run WorksetCalculator.inserted_new hinserts
  rw [Set.empty_union] at hinserted
  rw [getWorkset, calculator_processEvents, ← inserted_calls]
  exact hinserted.getWorkset_eq hcached

theorem touched_finite (id : ℕ) (events : List Event) : (touched id events).Finite := by
  have hios := (events.filterMap ioOf).finite_toSet
  refine (hios.biUnion fun io _ => Set.finite_Ico io.lba (io.lba + io.len)).subset ?_
  rintro x ⟨event, hevent, io, hio, -, hx⟩
  exact Set.mem_biUnion (List.mem_filterMap.mpr ⟨event, hevent, hio⟩) hx

/-- The working set is the sum over the devices when no two devices are touched at one sector
number, and not otherwise. -/
theorem getWorkset_eq_sum_iff
    (hfits : ∀ event ∈ events, ∀ io, ioOf event = some io → io.lba + io.len < 2 ^ 64) :
    (processEvents events new).getWorkset = ∑ id ∈ devices events, (touched id events).ncard ↔
      ∀ id ∈ devices events, ∀ id' ∈ devices events, id ≠ id' →
        Disjoint (touched id events) (touched id' events) := by
  rw [getWorkset_eq_ncard_iUnion hfits,
    ncard_biUnion_eq_sum_iff _ fun id => touched_finite id events]
  rfl

/-- A read of eight sectors. -/
def readOn (deviceId lba : ℕ) : Event :=
  ⟨⟨1, 10⟩, .io ⟨lba, 8, 0, deviceId, .Read, false, false, 0, 0, false, false, false⟩⟩

theorem getWorkset_eq_sum_iff_readOn :
    (processEvents [readOn 1 0, readOn 2 8] new).getWorkset =
        ∑ id ∈ devices [readOn 1 0, readOn 2 8], (touched id [readOn 1 0, readOn 2 8]).ncard ↔
      ∀ id ∈ devices [readOn 1 0, readOn 2 8], ∀ id' ∈ devices [readOn 1 0, readOn 2 8],
        id ≠ id' → Disjoint (touched id [readOn 1 0, readOn 2 8])
          (touched id' [readOn 1 0, readOn 2 8]) := by
  refine getWorkset_eq_sum_iff fun event hevent io hio => ?_
  simp only [List.mem_cons, List.not_mem_nil, or_false] at hevent
  rcases hevent with rfl | rfl <;> obtain rfl := Option.some.inj hio <;> decide

/-- The same sectors of two devices count once. -/
theorem getWorkset_ne_sum_readOn : (processEvents [readOn 1 0, readOn 2 0] new).getWorkset ≠
    ∑ id ∈ devices [readOn 1 0, readOn 2 0], (touched id [readOn 1 0, readOn 2 0]).ncard := by
  have hfits : ∀ event ∈ [readOn 1 0, readOn 2 0], ∀ io, ioOf event = some io →
      io.lba + io.len < 2 ^ 64 := by
    intro event hevent io hio
    simp only [List.mem_cons, List.not_mem_nil, or_false] at hevent
    rcases hevent with rfl | rfl <;> obtain rfl := Option.some.inj hio <;> decide
  have htouched : ∀ id, id = 1 ∨ id = 2 → 0 ∈ touched id [readOn 1 0, readOn 2 0] := by
    rintro id (rfl | rfl)
    · exact ⟨readOn 1 0, by simp, _, rfl, rfl, by simp⟩
    · exact ⟨readOn 2 0, by simp, _, rfl, rfl, by simp⟩
  rw [getWorkset_eq_ncard_iUnion hfits]
  intro heq
  have hdisjoint := (ncard_biUnion_eq_sum_iff _ fun id => touched_finite id _).mp heq
  have hboth : Disjoint (touched 1 [readOn 1 0, readOn 2 0]) (touched 2 [readOn 1 0, readOn 2 0]) :=
    hdisjoint (by decide) (by decide) (by decide)
  exact Set.disjoint_left.mp hboth (htouched 1 (Or.inl rfl)) (htouched 2 (Or.inr rfl))

end CasTraceEventHandlerWorkset

end Octf.Parser
