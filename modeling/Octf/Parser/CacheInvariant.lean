import Mathlib.Tactic.Common
import Octf.Parser.IoCache

/-! What every step keeps of a cache of requests: an id refers to a request that waits for its
completion, and what will be said of a request changes only by its completion. -/
namespace Octf.Parser
open Foundation

namespace IoCache

/-- The number the next entry gets. -/
def next (s : IoCache) : ℕ := s.popped + s.queue.length

/-- Ids refer to requests that have not been completed, and reports are given in order. -/
structure Consistent (s : IoCache) : Prop where
  mapped : ∀ {id number : ℕ}, s.idMapping id = some number → id ≠ 0 ∧
    ∃ request, s.entry number = some request ∧ request.sid = id ∧ request.latency = 0 ∧
      request.error = false
  reports : s.reported.length = s.popped

/-- What is said of the request with the given number, or would be if it were pushed out now. -/
def outcome (number : ℕ) (s : IoCache) : Option (ℕ × Bool) :=
  match s.reported[number]? with
  | some report => report.map fun r => (r.latency, r.error)
  | none => (s.entry number).map fun r => (r.latency, r.error)

variable {s : IoCache} {id number timestamp sid device refId : ℕ} {error : Bool}

/-! ### Entries under the steps -/

theorem entry_eq_some {request : Cached} (hentry : s.entry number = some request) :
    s.popped ≤ number ∧ number < s.next ∧
      s.queue[number - s.popped]? = some (some request) := by
  unfold entry at hentry
  split_ifs at hentry with hpopped
  have hget := Option.join_eq_some_iff.mp hentry
  obtain ⟨hlt, _⟩ := List.getElem?_eq_some_iff.mp hget
  exact ⟨hpopped, by unfold next; omega, hget⟩

/-- An entry at the end leaves the others alone. -/
theorem entry_append (hnumber : number < s.next) (e : Option Cached) (idMapping depth) :
    entry number { s with queue := s.queue ++ [e], idMapping := idMapping, depth := depth } =
      s.entry number := by
  unfold next at hnumber
  by_cases hpopped : s.popped ≤ number
  · simp only [entry, hpopped, if_true]
    rw [List.getElem?_append_left (by omega)]
  · simp only [entry, hpopped, if_false]

theorem entry_append_last (e : Option Cached) (idMapping depth) :
    entry s.next { s with queue := s.queue ++ [e], idMapping := idMapping, depth := depth } =
      e := by
  simp [entry, next]

theorem entry_submit :
    (s.submit timestamp sid id device).entry s.next = some ⟨if id ≠ 0 then id else sid, timestamp,
      device, 0, false, add64 (s.depth device).value 1⟩ := entry_append_last _ _ _

theorem idMapping_submit (hid : id ≠ 0) :
    (s.submit timestamp sid id device).idMapping id = some s.next := by
  simp only [submit, if_pos hid, Function.update_self]
  rfl

theorem next_submit : (s.submit timestamp sid id device).next = s.next + 1 := by
  simp [submit, next, Nat.add_assoc]

theorem entry_settle_self {request : Cached} (hentry : s.entry number = some request) :
    (s.settle timestamp device error number request).entry number = some
      (if request.timestamp ≤ timestamp then
        { request with sid := 0, latency := timestamp - request.timestamp, error := error }
      else { request with sid := 0 }) := by
  obtain ⟨hpopped, hnext, _⟩ := entry_eq_some hentry
  unfold next at hnext
  simp only [entry, settle, hpopped, if_true]
  rw [List.getElem?_set_self (by omega)]
  rfl

theorem entry_settle_of_ne {other : ℕ} {request : Cached} (hne : other ≠ number)
    (hentry : s.entry number = some request) :
    (s.settle timestamp device error number request).entry other = s.entry other := by
  obtain ⟨hpopped, _⟩ := entry_eq_some hentry
  by_cases hother : s.popped ≤ other
  · simp only [entry, settle, hother, if_true]
    rw [List.getElem?_set_ne (by omega)]
  · simp only [entry, settle, hother, if_false]

theorem entry_pushOut (hnumber : number ≠ s.popped) : s.pushOut.entry number = s.entry number := by
  unfold pushOut
  split
  · rfl
  all_goals
    next hqueue =>
      unfold entry
      simp only [hqueue]
      by_cases hpopped : s.popped ≤ number
      · have hlt : s.popped + 1 ≤ number := by omega
        have hsub : number - s.popped = number - (s.popped + 1) + 1 := by omega
        rw [if_pos hlt, if_pos hpopped, hsub, List.getElem?_cons_succ]
      · rw [if_neg hpopped, if_neg (by omega)]

theorem entry_front {e : Option Cached} {queue : List (Option Cached)}
    (hqueue : s.queue = e :: queue) : s.entry s.popped = e := by
  simp [entry, hqueue]

theorem pushOut_of_nil (hqueue : s.queue = []) : s.pushOut = s := by
  simp [pushOut, hqueue]

theorem pushOut_of_request {request : Cached} {queue : List (Option Cached)}
    (hqueue : s.queue = some request :: queue) :
    s.pushOut.popped = s.popped + 1 ∧
      s.pushOut.idMapping = Function.update s.idMapping request.sid none := by
  unfold pushOut
  rw [hqueue]
  exact ⟨rfl, rfl⟩

theorem next_pushOut : s.pushOut.next = s.next := by
  unfold pushOut next
  split
  · rfl
  all_goals
    next hqueue =>
      simp only [hqueue, List.length_cons]
      omega

theorem next_settle {request : Cached} :
    (s.settle timestamp device error number request).next = s.next := by
  simp [settle, next]

theorem next_complete : (s.complete timestamp refId device error).next = s.next := by
  unfold complete
  split
  · rfl
  · exact next_settle

/-! ### Consistency -/

theorem consistent_start : start.Consistent where
  mapped h := by cases h
  reports := rfl

namespace Consistent

/-- The request behind an id. -/
theorem find (hs : s.Consistent) (hid : s.idMapping id = some number) :
    ∃ request, s.find id = some (number, request) ∧ s.entry number = some request ∧
      request.sid = id ∧ request.latency = 0 ∧ request.error = false := by
  obtain ⟨_, request, hentry, hsid, hlatency, herror⟩ := hs.mapped hid
  exact ⟨request, by simp [IoCache.find, hid, hentry], hentry, hsid, hlatency, herror⟩

theorem of_find {request : Cached} (hs : s.Consistent)
    (hfind : s.find id = some (number, request)) :
    s.idMapping id = some number ∧ s.entry number = some request ∧ request.sid = id ∧
      request.latency = 0 ∧ request.error = false := by
  unfold IoCache.find at hfind
  split at hfind
  · cases hfind
  · next m hid =>
    obtain ⟨r, hentry, heq⟩ := Option.map_eq_some_iff.mp hfind
    obtain ⟨rfl, rfl⟩ := Prod.mk.inj heq
    obtain ⟨_, r', hentry', hr⟩ := hs.mapped hid
    cases hentry.symm.trans hentry'
    exact ⟨hid, hentry, hr⟩

/-- Two ids never refer to one request. -/
theorem id_unique (hs : s.Consistent) {id' : ℕ} (hid : s.idMapping id = some number)
    (hid' : s.idMapping id' = some number) : id = id' := by
  obtain ⟨r, -, hentry, hsid, -⟩ := hs.find hid
  obtain ⟨r', -, hentry', hsid', -⟩ := hs.find hid'
  cases hentry.symm.trans hentry'
  exact hsid.symm.trans hsid'

theorem number_lt (hs : s.Consistent) (hid : s.idMapping id = some number) :
    s.popped ≤ number ∧ number < s.next := by
  obtain ⟨_, _, hentry, _⟩ := hs.mapped hid
  obtain ⟨hpopped, hnext, _⟩ := entry_eq_some hentry
  exact ⟨hpopped, hnext⟩

theorem submit (hs : s.Consistent) : (s.submit timestamp sid id device).Consistent where
  mapped := by
    intro id' number' hid'
    simp only [IoCache.submit] at hid' ⊢
    by_cases hnew : id ≠ 0 ∧ id' = id
    · obtain ⟨hne, rfl⟩ := hnew
      rw [if_pos hne, Function.update_self] at hid'
      cases hid'
      exact ⟨hne, _, entry_append_last _ _ _, if_pos hne, rfl, rfl⟩
    · have hold : s.idMapping id' = some number' := by
        split_ifs at hid' with hne
        · rwa [Function.update_of_ne (fun heq => hnew ⟨hne, heq⟩)] at hid'
        · exact hid'
      obtain ⟨hne, request, hentry, hrequest⟩ := hs.mapped hold
      exact ⟨hne, request, (entry_append (hs.number_lt hold).2 _ _ _).trans hentry, hrequest⟩
  reports := hs.reports

theorem other (hs : s.Consistent) : (Step.other.apply s).Consistent where
  mapped := by
    intro id' number' hid'
    obtain ⟨hne, request, hentry, hrequest⟩ := hs.mapped hid'
    exact ⟨hne, request, (entry_append (hs.number_lt hid').2 _ _ _).trans hentry, hrequest⟩
  reports := hs.reports

/-- The ids that are left after a completion refer to other requests. -/
theorem mapped_settle (hs : s.Consistent) {request : Cached} {id' number' : ℕ}
    (hid : s.idMapping id = some number) (hentry : s.entry number = some request)
    (hid' : (s.settle timestamp device error number request).idMapping id' = some number') :
    s.idMapping id' = some number' ∧ number' ≠ number := by
  have hsid : request.sid = id := by
    obtain ⟨_, -, hentry', hsid, -⟩ := hs.find hid
    cases hentry.symm.trans hentry'
    exact hsid
  have hne : id' ≠ id := by
    rintro rfl
    simp [IoCache.settle, hsid] at hid'
  have hold : s.idMapping id' = some number' := by
    simpa only [IoCache.settle, hsid, Function.update_of_ne hne] using hid'
  refine ⟨hold, ?_⟩
  rintro rfl
  exact hne (hs.id_unique hold hid)

theorem settle (hs : s.Consistent) {request : Cached} (hid : s.idMapping id = some number)
    (hentry : s.entry number = some request) :
    (s.settle timestamp device error number request).Consistent where
  mapped := by
    intro id' number' hid'
    obtain ⟨hold, hnumber⟩ := hs.mapped_settle hid hentry hid'
    rw [entry_settle_of_ne hnumber hentry]
    exact hs.mapped hold
  reports := hs.reports

theorem complete (hs : s.Consistent) : (s.complete timestamp refId device error).Consistent := by
  unfold IoCache.complete
  split
  · exact hs
  · next hfind =>
    obtain ⟨hid, hentry, -⟩ := hs.of_find hfind
    exact hs.settle hid hentry

/-- The ids that are left after a push-out refer to requests that are left. -/
theorem mapped_pushOut (hs : s.Consistent) {id' number' : ℕ} (hqueue : s.queue ≠ [])
    (hid' : s.pushOut.idMapping id' = some number') :
    s.idMapping id' = some number' ∧ number' ≠ s.popped := by
  obtain ⟨e, queue, hqueue⟩ := List.exists_cons_of_ne_nil hqueue
  have hfront := entry_front hqueue
  cases e with
  | none =>
    have hid : s.idMapping id' = some number' := by
      simpa only [IoCache.pushOut, hqueue] using hid'
    obtain ⟨_, r, hentry, -⟩ := hs.mapped hid
    refine ⟨hid, ?_⟩
    rintro rfl
    cases hfront.symm.trans hentry
  | some request =>
    rw [(pushOut_of_request hqueue).2] at hid'
    have hne : id' ≠ request.sid := by
      rintro rfl
      simp at hid'
    rw [Function.update_of_ne hne] at hid'
    obtain ⟨_, r, hentry, hsid, -⟩ := hs.mapped hid'
    refine ⟨hid', ?_⟩
    rintro rfl
    cases hfront.symm.trans hentry
    exact hne hsid.symm

theorem pushOut (hs : s.Consistent) : s.pushOut.Consistent := by
  by_cases hqueue : s.queue = []
  · rwa [pushOut_of_nil hqueue]
  · refine ⟨?_, ?_⟩
    · intro id' number' hid'
      obtain ⟨hold, hnumber⟩ := hs.mapped_pushOut hqueue hid'
      rw [entry_pushOut hnumber]
      exact hs.mapped hold
    · unfold IoCache.pushOut
      split
      · exact hs.reports
      all_goals simp [hs.reports]

theorem apply (hs : s.Consistent) (step : Step) : (step.apply s).Consistent := by
  cases step with
  | submit timestamp sid id device => exact hs.submit
  | other => exact hs.other
  | complete timestamp refId device error => exact hs.complete
  | quiet => exact hs
  | pushOut => exact hs.pushOut

theorem after_run (hs : s.Consistent) (steps : List Step) :
    (run Step.apply steps s).Consistent := by
  induction steps generalizing s with
  | nil => exact hs
  | cons step steps ih => exact ih (hs.apply step)

end Consistent

end IoCache

end Octf.Parser
