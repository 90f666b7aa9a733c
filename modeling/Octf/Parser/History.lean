import Mathlib.Data.List.Basic
import Octf.Parser.Outcome

/-! The history of a cache run: the device of every request and the latency it was matched with.
The two counters of a device are sums over it. -/
namespace Octf.Parser
open Foundation

/-- What is known of a request afterwards. -/
structure Record where
  device : ℕ
  matched : Option ℕ
  deriving DecidableEq

/-- A request of the device that no completion was matched with. -/
def Unmatched (device : ℕ) (record : Option Record) : Prop := record = some ⟨device, none⟩

/-- A request of the device that is reported without latency. -/
def Instant (device : ℕ) (record : Option Record) : Prop :=
  record = some ⟨device, none⟩ ∨ record = some ⟨device, some 0⟩

instance (device : ℕ) : DecidablePred (Unmatched device) := fun _ =>
  inferInstanceAs (Decidable (_ = _))

instance (device : ℕ) : DecidablePred (Instant device) := fun _ =>
  inferInstanceAs (Decidable (_ ∨ _))

theorem instant_iff {device : ℕ} {record : Record} : Instant device (some record) ↔
    record.device = device ∧ record.matched.getD 0 = 0 := by
  obtain ⟨device', matched⟩ := record
  cases matched with
  | none => simp [Instant]
  | some latency => simp [Instant]

/-- What happens to a record: a request may be matched. -/
def Becomes (record record' : Option Record) : Prop :=
  record = record' ∨ ∃ device latency, record = some ⟨device, none⟩ ∧
    record' = some ⟨device, some latency⟩

/-- A later history. -/
def Extends (history history' : List (Option Record)) : Prop :=
  ∀ (number : ℕ) record, history[number]? = some record →
    ∃ record', history'[number]? = some record' ∧ Becomes record record'

/-- The requests of the device that were still to be matched in the first history and are
matched in the second. -/
def overlapping (device : ℕ) (history history' : List (Option Record)) : ℕ :=
  (history.zip history').countP fun x =>
    decide (x.1 = some ⟨device, none⟩ ∧ (x.2.bind Record.matched).isSome)

theorem Extends.refl (history : List (Option Record)) : Extends history history :=
  fun _ record hrecord => ⟨record, hrecord, Or.inl rfl⟩

theorem Becomes.trans {x y z : Option Record} (hxy : Becomes x y) (hyz : Becomes y z) :
    Becomes x z := by
  rcases hxy with rfl | ⟨device, latency, rfl, rfl⟩
  · exact hyz
  · rcases hyz with rfl | ⟨device', latency', heq, -⟩
    · exact Or.inr ⟨device, latency, rfl, rfl⟩
    · cases heq

theorem Extends.trans {h₁ h₂ h₃ : List (Option Record)} (h₁₂ : Extends h₁ h₂)
    (h₂₃ : Extends h₂ h₃) : Extends h₁ h₃ := by
  intro number x hx
  obtain ⟨y, hy, hxy⟩ := h₁₂ number x hx
  obtain ⟨z, hz, hyz⟩ := h₂₃ number y hy
  exact ⟨z, hz, hxy.trans hyz⟩

/-- The requests that were to be matched are matched later or never; those that are reported
without latency were never matched or matched with latency zero. -/
theorem Extends.count {history history' : List (Option Record)} (device : ℕ)
    (hextends : Extends history history') :
    history.countP (Unmatched device) +
        (history'.take history.length).countP (· = some ⟨device, some 0⟩) =
      overlapping device history history' +
        (history'.take history.length).countP (Instant device) := by
  induction history generalizing history' with
  | nil => simp [overlapping]
  | cons x history ih =>
    obtain ⟨y, hy, hxy⟩ := hextends 0 x rfl
    cases history' with
    | nil => cases hy
    | cons y' history' =>
      obtain rfl : y' = y := Option.some.inj hy
      have htail := @ih history' fun number record hrecord =>
        hextends (number + 1) record hrecord
      unfold overlapping at htail ⊢
      simp only [List.length_cons, List.take_succ_cons, List.zip_cons_cons, List.countP_cons]
      have hhead : (if decide (Unmatched device x) = true then 1 else 0) +
          (if decide (y' = some ⟨device, some 0⟩) = true then 1 else 0) =
          (if decide (x = some ⟨device, none⟩ ∧ (y'.bind Record.matched).isSome) = true
            then 1 else 0) +
          (if decide (Instant device y') = true then 1 else 0) := by
        rcases hxy with rfl | ⟨device', latency, rfl, rfl⟩
        · by_cases hnone : x = some ⟨device, none⟩
          · simp [hnone, Unmatched, Instant]
          · simp [hnone, Unmatched, Instant]
        · by_cases hdevice : device' = device
          · subst hdevice
            by_cases hzero : latency = 0
            · simp [hzero, Unmatched, Instant]
            · simp [hzero, Unmatched, Instant]
          · simp [hdevice, Unmatched, Instant]
      omega

namespace IoCache

/-- What a step adds to the history. -/
def Step.record : Step → IoCache → List (Option Record) → List (Option Record)
  | .submit _ _ _ device, _, history => history ++ [some ⟨device, none⟩]
  | .other, _, history => history ++ [none]
  | .complete timestamp refId _ _, s, history =>
    match s.find refId with
    | none => history
    | some (number, request) =>
      if request.timestamp ≤ timestamp then
        history.set number (some ⟨request.device, some (timestamp - request.timestamp)⟩)
      else history
  | .quiet, _, history => history
  | .pushOut, _, history => history

/-- A step of the cache beside its history. -/
def Step.applyWith (step : Step) (p : IoCache × List (Option Record)) :
    IoCache × List (Option Record) := (step.apply p.1, step.record p.1 p.2)

/-- A completion carries the device of the request it refers to. -/
def Step.CarriesDevice (s : IoCache) : Step → Prop
  | .complete _ refId device _ =>
    ∀ number request, s.find refId = some (number, request) → request.device = device
  | _ => True

/-- The cache agrees with its history, and the counters are sums over it. -/
structure Balanced (s : IoCache) (history : List (Option Record)) : Prop where
  consistent : s.Consistent
  length : history.length = s.next
  records : ∀ {number : ℕ}, s.popped ≤ number → number < s.next → ∀ {request : Option Cached},
    s.entry number = request → ∃ record, history[number]? = some record ∧
      record.map Record.device = request.map Cached.device ∧
      (record.bind Record.matched).getD 0 = (request.map Cached.latency).getD 0
  waiting : ∀ {id number : ℕ}, s.idMapping id = some number →
    ∃ device, history[number]? = some (some ⟨device, none⟩)
  value : ∀ device, (s.depth device).value = history.countP (Unmatched device)
  adjustment : ∀ device,
    (s.depth device).adjustment = (history.take s.popped).countP (Instant device)

variable {s : IoCache} {history : List (Option Record)} {step : Step}

theorem balanced_start : Balanced start [] where
  consistent := consistent_start
  length := rfl
  records _ h := absurd h (Nat.not_lt_zero _)
  waiting h := by cases h
  value _ := rfl
  adjustment _ := rfl

namespace Balanced

theorem popped_le (hb : Balanced s history) : s.popped ≤ history.length := by
  rw [hb.length]
  exact Nat.le_add_right _ _

theorem submit (hb : Balanced s history) {timestamp sid id device : ℕ}
    (hroom : s.next + 1 < 2 ^ 64) :
    Balanced (s.submit timestamp sid id device) (history ++ [some ⟨device, none⟩]) where
  consistent := hb.consistent.submit
  length := by rw [List.length_append, hb.length, next_submit]; rfl
  records := by
    intro number hpopped hnext request hentry
    rw [next_submit] at hnext
    rcases Nat.lt_succ_iff_lt_or_eq.mp hnext with hlt | rfl
    · rw [IoCache.submit, entry_append hlt] at hentry
      rw [List.getElem?_append_left (by rw [hb.length]; exact hlt)]
      exact hb.records hpopped hlt hentry
    · rw [entry_submit] at hentry
      subst hentry
      exact ⟨_, by rw [← hb.length, List.getElem?_concat_length], rfl, rfl⟩
  waiting := by
    intro id' number hid
    simp only [IoCache.submit] at hid
    by_cases hnew : id ≠ 0 ∧ id' = id
    · obtain ⟨hne, rfl⟩ := hnew
      rw [if_pos hne, Function.update_self] at hid
      obtain rfl : s.next = number := Option.some.inj hid
      exact ⟨device, by rw [← hb.length, List.getElem?_concat_length]⟩
    · have hold : s.idMapping id' = some number := by
        split_ifs at hid with hne
        · rwa [Function.update_of_ne (fun heq => hnew ⟨hne, heq⟩)] at hid
        · exact hid
      rw [List.getElem?_append_left (by
        rw [hb.length]; exact (hb.consistent.number_lt hold).2)]
      exact hb.waiting hold
  value := by
    intro device'
    have hcount : history.countP (Unmatched device) < 2 ^ 64 - 1 := by
      have := hb.length ▸ (List.countP_le_length (p := Unmatched device) (l := history))
      omega
    rw [List.countP_append, IoCache.submit]
    by_cases hdevice : device' = device
    · subst hdevice
      simp only [Function.update_self, hb.value]
      rw [add64_of_lt (by omega)]
      simp [Unmatched]
    · simp only [Function.update_of_ne hdevice, hb.value]
      simp [Unmatched, Ne.symm hdevice]
  adjustment := by
    intro device'
    have htake : (history ++ [some (Record.mk device none)]).take s.popped =
        history.take s.popped := List.take_append_of_le_length hb.popped_le
    simp only [IoCache.submit, htake, ← hb.adjustment]
    by_cases hdevice : device' = device
    · subst hdevice
      rw [Function.update_self]
    · rw [Function.update_of_ne hdevice]

theorem other (hb : Balanced s history) : Balanced (Step.other.apply s) (history ++ [none]) where
  consistent := hb.consistent.other
  length := by simp [hb.length, Step.apply, next, Nat.add_assoc]
  records := by
    intro number hpopped hnext request hentry
    have hnext' : number < s.next + 1 := by
      simpa [Step.apply, next, Nat.add_assoc] using hnext
    rcases Nat.lt_succ_iff_lt_or_eq.mp hnext' with hlt | rfl
    · rw [Step.apply, entry_append hlt _ s.idMapping s.depth] at hentry
      rw [List.getElem?_append_left (by rw [hb.length]; exact hlt)]
      exact hb.records hpopped hlt hentry
    · rw [Step.apply, entry_append_last _ s.idMapping s.depth] at hentry
      subst hentry
      exact ⟨_, by rw [← hb.length, List.getElem?_concat_length], rfl, rfl⟩
  waiting := by
    intro id number hid
    rw [List.getElem?_append_left (by
      rw [hb.length]; exact (hb.consistent.number_lt hid).2)]
    exact hb.waiting hid
  value := by
    intro device
    rw [List.countP_append, Step.apply, hb.value]
    simp [Unmatched]
  adjustment := by
    intro device
    have htake : (history ++ [none]).take s.popped = history.take s.popped :=
      List.take_append_of_le_length hb.popped_le
    simp only [Step.apply, htake]
    exact hb.adjustment device

/-- A completion that is not matched only takes the id away. -/
theorem settle_early (hb : Balanced s history) {timestamp device id number : ℕ} {error : Bool}
    {request : Cached} (hid : s.idMapping id = some number)
    (hentry : s.entry number = some request) (htime : ¬ request.timestamp ≤ timestamp) :
    Balanced (s.settle timestamp device error number request) history where
  consistent := hb.consistent.settle hid hentry
  length := hb.length.trans next_settle.symm
  records := by
    intro other hpopped hnext request' hentry'
    rw [next_settle] at hnext
    by_cases hother : other = number
    · subst hother
      rw [entry_settle_self hentry, if_neg htime] at hentry'
      subst hentry'
      obtain ⟨record, hrecord, hdevice, hlatency⟩ := hb.records hpopped hnext hentry
      exact ⟨record, hrecord, hdevice, hlatency⟩
    · rw [entry_settle_of_ne hother hentry] at hentry'
      exact hb.records hpopped hnext hentry'
  waiting := by
    intro id' number' hid'
    exact hb.waiting (hb.consistent.mapped_settle hid hentry hid').1
  value := by
    intro device'
    simp only [IoCache.settle, htime, false_and, if_false]
    exact hb.value device'
  adjustment := by
    intro device'
    simp only [IoCache.settle, htime, false_and, if_false]
    exact hb.adjustment device'

/-- A request that an id refers to has not been matched. -/
theorem record_of_id (hb : Balanced s history) {id number : ℕ} {request : Cached}
    (hid : s.idMapping id = some number) (hentry : s.entry number = some request) :
    history[number]? = some (some ⟨request.device, none⟩) := by
  obtain ⟨hpopped, hnext⟩ := hb.consistent.number_lt hid
  obtain ⟨device, hrecord⟩ := hb.waiting hid
  obtain ⟨record, hrecord', hdevice, -⟩ := hb.records hpopped hnext hentry
  obtain rfl := Option.some.inj (hrecord.symm.trans hrecord')
  obtain rfl : device = request.device := by simpa using hdevice
  exact hrecord

/-- A matched completion lowers the value by one and never finds it at zero. -/
theorem settle (hb : Balanced s history) {timestamp id number : ℕ} {error : Bool}
    {request : Cached} (hid : s.idMapping id = some number)
    (hentry : s.entry number = some request) (htime : request.timestamp ≤ timestamp) :
    Balanced (s.settle timestamp request.device error number request)
      (history.set number (some ⟨request.device, some (timestamp - request.timestamp)⟩)) := by
  obtain ⟨hpopped, hnext⟩ := hb.consistent.number_lt hid
  have hlt : number < history.length := hb.length.symm ▸ hnext
  have hwaiting := (List.getElem?_eq_some_iff.mp (hb.record_of_id hid hentry)).2
  have hvalue : ∀ device, (history.set number
      (some ⟨request.device, some (timestamp - request.timestamp)⟩)).countP (Unmatched device) =
      history.countP (Unmatched device) - (if device = request.device then 1 else 0) := by
    intro device
    rw [List.countP_set hlt, hwaiting]
    simp [Unmatched, eq_comm]
  refine ⟨hb.consistent.settle hid hentry, ?_, ?_, ?_, ?_, ?_⟩
  · rw [List.length_set, hb.length, next_settle]
  · intro other hpopped' hnext' request' hentry'
    rw [next_settle] at hnext'
    by_cases hother : other = number
    · subst hother
      rw [entry_settle_self hentry, if_pos htime] at hentry'
      subst hentry'
      exact ⟨_, List.getElem?_set_self hlt, rfl, rfl⟩
    · rw [entry_settle_of_ne hother hentry] at hentry'
      rw [List.getElem?_set_ne (Ne.symm hother)]
      exact hb.records hpopped' hnext' hentry'
  · intro id' number' hid'
    obtain ⟨hold, hother⟩ := hb.consistent.mapped_settle hid hentry hid'
    rw [List.getElem?_set_ne hother.symm]
    exact hb.waiting hold
  · intro device
    rw [hvalue, ← hb.value]
    have hpos : (s.depth request.device).value ≠ 0 := by
      rw [hb.value, ← Nat.pos_iff_ne_zero, List.countP_pos_iff]
      exact ⟨_, List.getElem_mem hlt, by simp [hwaiting, Unmatched]⟩
    simp only [IoCache.settle, htime, hpos, true_and, ne_eq, not_false_eq_true, if_true]
    by_cases hdevice : device = request.device
    · subst hdevice
      simp
    · simp [hdevice]
  · intro device
    have htake : (history.set number (some ⟨request.device,
        some (timestamp - request.timestamp)⟩)).take s.popped = history.take s.popped :=
      List.take_set_of_le hpopped
    simp only [IoCache.settle, htake, ← hb.adjustment]
    by_cases hdevice : device = request.device
    · subst hdevice
      split_ifs <;> simp
    · split_ifs <;> simp [hdevice]

theorem complete (hb : Balanced s history) {timestamp refId device : ℕ} {error : Bool}
    (hcarries : Step.CarriesDevice s (.complete timestamp refId device error)) :
    Balanced (s.complete timestamp refId device error)
      (Step.record (.complete timestamp refId device error) s history) := by
  simp only [IoCache.complete, Step.record]
  cases hfind : s.find refId with
  | none => exact hb
  | some found =>
    obtain ⟨number, request⟩ := found
    obtain ⟨hid, hentry, -⟩ := hb.consistent.of_find hfind
    obtain rfl := hcarries number request hfind
    simp only
    split_ifs with htime
    · exact hb.settle hid hentry htime
    · exact hb.settle_early hid hentry htime

theorem pushOut (hb : Balanced s history) (hroom : s.next < 2 ^ 64) :
    Balanced s.pushOut history := by
  by_cases hqueue : s.queue = []
  · rwa [pushOut_of_nil hqueue]
  obtain ⟨e, queue, hqueue'⟩ := List.exists_cons_of_ne_nil hqueue
  have hpopped : s.pushOut.popped = s.popped + 1 := by
    simp only [IoCache.pushOut, hqueue']
    cases e <;> rfl
  have hnext : s.popped < s.next := by
    simp [next, hqueue']
  obtain ⟨record, hrecord, hdevice, hlatency⟩ := hb.records le_rfl hnext (entry_front hqueue')
  have htake : history.take (s.popped + 1) = history.take s.popped ++ [record] := by
    rw [List.take_add_one, hrecord]
    rfl
  refine ⟨hb.consistent.pushOut, hb.length.trans next_pushOut.symm, ?_, ?_, ?_, ?_⟩
  · intro number hpopped' hnext' request hentry
    rw [hpopped] at hpopped'
    rw [next_pushOut] at hnext'
    rw [entry_pushOut (by omega)] at hentry
    exact hb.records (by omega) hnext' hentry
  · intro id number hid
    exact hb.waiting (hb.consistent.mapped_pushOut hqueue hid).1
  · intro device
    rw [← hb.value]
    cases e with
    | none => simp [IoCache.pushOut, hqueue']
    | some request =>
      simp only [IoCache.pushOut, hqueue']
      split_ifs
      · by_cases heq : device = request.device
        · subst heq
          simp
        · simp [heq]
      · rfl
  · intro device
    have hsmall : (s.depth device).adjustment + 1 < 2 ^ 64 := by
      have hle := List.countP_le_length (p := Instant device) (l := history.take s.popped)
      rw [← hb.adjustment, List.length_take] at hle
      omega
    rw [hpopped, htake, List.countP_append, ← hb.adjustment]
    cases e with
    | none =>
      obtain rfl : record = none := by simpa using hdevice
      simp [IoCache.pushOut, hqueue', Instant]
    | some request =>
      obtain ⟨⟨_, matched⟩, rfl⟩ : ∃ r, record = some r := by
        cases record with
        | none => cases hdevice
        | some r => exact ⟨r, rfl⟩
      obtain rfl := Option.some.inj hdevice
      have hinstant : Instant device (some ⟨request.device, matched⟩) ↔
          request.device = device ∧ request.latency = 0 := by
        have hmatched : matched.getD 0 = request.latency := hlatency
        rw [instant_iff, hmatched]
      simp only [IoCache.pushOut, hqueue', List.countP_singleton, decide_eq_true_eq, hinstant]
      by_cases hzero : request.latency = 0
      · by_cases heq : request.device = device
        · subst heq
          simp [hzero, add64_of_lt hsmall]
        · simp [hzero, heq, Ne.symm heq]
      · simp [hzero]

/-- Every step keeps the counters in balance with the history. -/
theorem applyWith (hb : Balanced s history) (hcarries : step.CarriesDevice s)
    (hroom : (step.apply s).next < 2 ^ 64) :
    Balanced (step.apply s) (step.record s history) := by
  cases step with
  | submit timestamp sid id device => exact hb.submit (next_submit ▸ hroom)
  | other => exact hb.other
  | complete timestamp refId device error => exact hb.complete hcarries
  | quiet => exact hb
  | pushOut => exact hb.pushOut (next_pushOut ▸ hroom)

end Balanced

/-! ### The depth that is reported -/

/-- The request with this number is in the cache with this depth, or has been reported with it
less the requests before it that were reported without latency. -/
def ShowsDepth (number device qd : ℕ) (s : IoCache) (history : List (Option Record)) : Prop :=
  (∃ request, s.entry number = some request ∧ request.device = device ∧ request.qd = qd) ∨
    number < s.popped ∧ ∃ report, s.reported[number]? = some (some report) ∧
      report.qd = sub64 qd ((history.take number).countP (Instant device))

/-- What has left the queue keeps its record. -/
theorem take_record {number : ℕ} (hb : Balanced s history) (hnumber : number ≤ s.popped) :
    (step.record s history).take number = history.take number := by
  have hlength := hnumber.trans hb.popped_le
  cases step with
  | submit timestamp sid id device => exact List.take_append_of_le_length hlength
  | other => exact List.take_append_of_le_length hlength
  | complete timestamp refId device error =>
    simp only [Step.record]
    cases hfind : s.find refId with
    | none => rfl
    | some found =>
      obtain ⟨m, request⟩ := found
      have hid := (hb.consistent.of_find hfind).1
      have hpopped := (hb.consistent.number_lt hid).1
      simp only
      split_ifs
      · exact List.take_set_of_le (hnumber.trans hpopped)
      · rfl
  | quiet => rfl
  | pushOut => rfl

/-- A step makes a later history. -/
theorem extends_record (hb : Balanced s history) (step : Step) :
    Extends history (step.record s history) := by
  cases step with
  | submit timestamp sid id device =>
    intro number record hrecord
    have hlt := (List.getElem?_eq_some_iff.mp hrecord).1
    exact ⟨record, (List.getElem?_append_left hlt).trans hrecord, Or.inl rfl⟩
  | other =>
    intro number record hrecord
    have hlt := (List.getElem?_eq_some_iff.mp hrecord).1
    exact ⟨record, (List.getElem?_append_left hlt).trans hrecord, Or.inl rfl⟩
  | complete timestamp refId device error =>
    simp only [Step.record]
    cases hfind : s.find refId with
    | none => exact Extends.refl history
    | some found =>
      obtain ⟨m, request⟩ := found
      obtain ⟨hid, hentry, -⟩ := hb.consistent.of_find hfind
      have hwaiting := hb.record_of_id hid hentry
      have hlt := (List.getElem?_eq_some_iff.mp hwaiting).1
      simp only
      split_ifs
      · intro number record hrecord
        by_cases hnumber : number = m
        · subst hnumber
          obtain rfl := Option.some.inj (hwaiting.symm.trans hrecord)
          exact ⟨_, List.getElem?_set_self hlt, Or.inr ⟨_, _, rfl, rfl⟩⟩
        · exact ⟨record, (List.getElem?_set_ne (Ne.symm hnumber)).trans hrecord, Or.inl rfl⟩
      · exact Extends.refl history
  | quiet => exact Extends.refl history
  | pushOut => exact Extends.refl history

theorem popped_le_apply (step : Step) : s.popped ≤ (step.apply s).popped := by
  cases step with
  | submit timestamp sid id device => exact le_rfl
  | other => exact le_rfl
  | complete timestamp refId device error =>
    simp only [Step.apply, complete]
    split <;> exact le_rfl
  | quiet => exact le_rfl
  | pushOut =>
    simp only [Step.apply, pushOut]
    split
    · exact le_rfl
    · exact Nat.le_succ _
    · exact Nat.le_succ _

/-- A report stays. -/
theorem reported_apply {number : ℕ} {report : Option Report}
    (hreport : s.reported[number]? = some report) (step : Step) :
    (step.apply s).reported[number]? = some report := by
  have hlt := (List.getElem?_eq_some_iff.mp hreport).1
  cases step with
  | submit timestamp sid id device => exact hreport
  | other => exact hreport
  | complete timestamp refId device error =>
    simp only [Step.apply, complete]
    split <;> exact hreport
  | quiet => exact hreport
  | pushOut =>
    simp only [Step.apply, pushOut]
    split
    · exact hreport
    · exact (List.getElem?_append_left hlt).trans hreport
    · exact (List.getElem?_append_left hlt).trans hreport

theorem showsDepth_apply {number device qd : ℕ} (hb : Balanced s history)
    (hshows : ShowsDepth number device qd s history) :
    ShowsDepth number device qd (step.apply s) (step.record s history) := by
  rcases hshows with ⟨request, hentry, hdevice, hqd⟩ | ⟨hpopped, report, hreport, hqd⟩
  · obtain ⟨hle, hnext, -⟩ := entry_eq_some hentry
    cases step with
    | submit timestamp sid id device =>
      exact Or.inl ⟨request, (entry_append hnext _ _ _).trans hentry, hdevice, hqd⟩
    | other =>
      exact Or.inl ⟨request, (entry_append hnext _ s.idMapping s.depth).trans hentry, hdevice, hqd⟩
    | complete timestamp refId device error =>
      refine Or.inl ?_
      simp only [Step.apply, complete]
      cases hfind : s.find refId with
      | none => exact ⟨request, hentry, hdevice, hqd⟩
      | some found =>
        obtain ⟨m, request'⟩ := found
        obtain ⟨hid, hentry', -⟩ := hb.consistent.of_find hfind
        by_cases hnumber : number = m
        · subst hnumber
          cases hentry.symm.trans hentry'
          refine ⟨_, entry_settle_self hentry, ?_, ?_⟩
          · split_ifs <;> exact hdevice
          · split_ifs <;> exact hqd
        · exact ⟨request, (entry_settle_of_ne hnumber hentry').trans hentry, hdevice, hqd⟩
    | quiet => exact Or.inl ⟨request, hentry, hdevice, hqd⟩
    | pushOut =>
      by_cases hnumber : number = s.popped
      · subst hnumber
        obtain ⟨queue, hqueue⟩ : ∃ queue, s.queue = some request :: queue := by
          have hfront := (entry_eq_some hentry).2.2
          cases hqueue : s.queue with
          | nil => simp [hqueue] at hfront
          | cons e queue =>
            simp only [hqueue, Nat.sub_self, List.getElem?_cons_zero, Option.some.injEq] at hfront
            exact ⟨queue, by rw [hfront]⟩
        refine Or.inr ⟨?_, ⟨request.device, request.latency, request.error,
          sub64 request.qd (s.depth request.device).adjustment⟩, ?_, ?_⟩
        · simp [Step.apply, (pushOut_of_request hqueue).1]
        · simp only [Step.apply, pushOut, hqueue]
          rw [← hb.consistent.reports, List.getElem?_concat_length]
        · simp only [Step.record, hdevice, hqd, hb.adjustment]
      · exact Or.inl ⟨request, (entry_pushOut hnumber).trans hentry, hdevice, hqd⟩
  · refine Or.inr ⟨hpopped.trans_le (popped_le_apply step), report,
      reported_apply hreport step, ?_⟩
    rw [take_record hb hpopped.le]
    exact hqd

/-- What is known of a request along a run that begins behind its submission. -/
structure Follows (history₀ : List (Option Record)) (number device qd : ℕ)
    (p : IoCache × List (Option Record)) : Prop where
  balanced : Balanced p.1 p.2
  later : Extends history₀ p.2
  depth : ShowsDepth number device qd p.1 p.2

/-- Every completion carries its device and the numbers stay below `2 ^ 64`. -/
def Step.Fits (step : Step) (p : IoCache × List (Option Record)) : Prop :=
  step.CarriesDevice p.1 ∧ (step.apply p.1).next < 2 ^ 64

theorem balanced_run {steps : List Step} {p : IoCache × List (Option Record)}
    (hfits : Meets Step.applyWith Step.Fits steps p) (hp : Balanced p.1 p.2) :
    Balanced (run Step.applyWith steps p).1 (run Step.applyWith steps p).2 := by
  apply run_invariant (P := fun p => Balanced p.1 p.2) _ hfits hp
  intro step p hfit hp
  exact hp.applyWith hfit.1 hfit.2

theorem follows_run {history₀ : List (Option Record)} {number device qd : ℕ} {steps : List Step}
    {p : IoCache × List (Option Record)} (hfits : Meets Step.applyWith Step.Fits steps p)
    (hp : Follows history₀ number device qd p) :
    Follows history₀ number device qd (run Step.applyWith steps p) := by
  apply run_invariant _ hfits hp
  intro step p hfit hp
  exact ⟨hp.balanced.applyWith hfit.1 hfit.2,
    hp.later.trans (extends_record hp.balanced step), showsDepth_apply hp.balanced hp.depth⟩

/-- A request that is submitted with room for it. -/
theorem follows_submit (hb : Balanced s history) {timestamp sid id device : ℕ}
    (hroom : s.next + 1 < 2 ^ 64) :
    Follows history s.next device (history.countP (Unmatched device) + 1)
      (Step.applyWith (.submit timestamp sid id device) (s, history)) where
  balanced := hb.submit hroom
  later := extends_record hb (.submit timestamp sid id device)
  depth := by
    have hle := List.countP_le_length (p := Unmatched device) (l := history)
    rw [hb.length] at hle
    refine Or.inl ⟨_, entry_submit, rfl, ?_⟩
    rw [hb.value, add64_of_lt (by omega)]

/-- The depth that is reported in the end. -/
theorem depth_of_follows {history₀ : List (Option Record)} {number device qd : ℕ}
    {p : IoCache × List (Option Record)} (hp : Follows history₀ number device qd p)
    (hqueue : p.1.queue = []) : ∃ report, p.1.reported[number]? = some (some report) ∧
      report.qd = sub64 qd ((p.2.take number).countP (Instant device)) := by
  rcases hp.depth with ⟨request, hentry, -⟩ | ⟨-, hreport⟩
  · simp [entry, hqueue] at hentry
  · exact hreport

end IoCache

end Octf.Parser
