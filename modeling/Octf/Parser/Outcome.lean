import Octf.Parser.CacheInvariant

/-! The fate of a request in the cache: it waits for its completion until the first step that
takes its id away, and that step decides what is said of it in the end. -/
namespace Octf.Parser
open Foundation

namespace IoCache

/-- A step after which the id does not refer any more to what it referred to. -/
def Ends (id : ℕ) (s : IoCache) : Step → Prop
  | .submit _ _ id' _ => id' = id
  | .complete _ refId _ _ => refId = id
  | .pushOut => ∃ request queue, s.queue = some request :: queue ∧ request.sid = id
  | _ => False

/-- What a step makes of a request that it takes the id from. -/
def Step.result (submitted : ℕ) : Step → ℕ × Bool
  | .complete timestamp _ _ error =>
    if submitted ≤ timestamp then (timestamp - submitted, error) else (0, false)
  | _ => (0, false)

variable {s : IoCache} {id number timestamp sid device refId : ℕ} {error : Bool} {step : Step}

theorem outcome_of_entry (hs : s.Consistent) {request : Cached}
    (hentry : s.entry number = some request) :
    s.outcome number = some (request.latency, request.error) := by
  have hnone : s.reported[number]? = none := by
    have := (entry_eq_some hentry).1
    rw [List.getElem?_eq_none_iff, hs.reports]
    exact this
  simp [outcome, hnone, hentry]

theorem outcome_submit (hnumber : number < s.next) :
    (s.submit timestamp sid id device).outcome number = s.outcome number := by
  unfold outcome
  rw [submit, entry_append hnumber]

theorem outcome_other (hnumber : number < s.next) :
    (Step.other.apply s).outcome number = s.outcome number := by
  unfold outcome
  rw [Step.apply, entry_append hnumber _ s.idMapping s.depth]

theorem outcome_complete (hs : s.Consistent) (hid : s.idMapping refId ≠ some number) :
    (s.complete timestamp refId device error).outcome number = s.outcome number := by
  unfold complete
  split
  · rfl
  · next m request hfind =>
    obtain ⟨href, hentry, -⟩ := hs.of_find hfind
    have hne : number ≠ m := by
      rintro rfl
      exact hid href
    unfold outcome
    rw [entry_settle_of_ne hne hentry]
    rfl

theorem outcome_complete_self (hs : s.Consistent) {request : Cached}
    (hid : s.idMapping id = some number) (hentry : s.entry number = some request) :
    (s.complete timestamp id device error).outcome number =
      some (Step.result request.timestamp (.complete timestamp id device error)) := by
  obtain ⟨r, hfind, hentry', -, hlatency, herror⟩ := hs.find hid
  cases hentry.symm.trans hentry'
  have hcomplete : s.complete timestamp id device error =
      s.settle timestamp device error number request := by
    simp [complete, hfind]
  rw [hcomplete, outcome_of_entry (hs.settle hid hentry) (entry_settle_self hentry)]
  simp only [Step.result]
  split_ifs
  · rfl
  · rw [hlatency, herror]

theorem outcome_pushOut (hs : s.Consistent) : s.pushOut.outcome number = s.outcome number := by
  cases hqueue : s.queue with
  | nil => simp [pushOut, hqueue]
  | cons e queue =>
    obtain ⟨report, hreport, hsame⟩ : ∃ report, s.pushOut.reported = s.reported ++ [report] ∧
        report.map (fun r => (r.latency, r.error)) = e.map fun r => (r.latency, r.error) := by
      cases e with
      | none => exact ⟨none, by simp [pushOut, hqueue], rfl⟩
      | some request => exact ⟨_, by simp only [pushOut, hqueue]; rfl, rfl⟩
    unfold outcome
    rw [hreport]
    rcases Nat.lt_trichotomy number s.popped with hlt | rfl | hgt
    · rw [List.getElem?_append_left (by rw [hs.reports]; exact hlt),
        List.getElem?_eq_getElem (by rw [hs.reports]; exact hlt)]
    · rw [← hs.reports, List.getElem?_concat_length, List.getElem?_eq_none le_rfl, hs.reports,
        entry_front hqueue]
      exact hsame
    · rw [List.getElem?_eq_none (by simp [hs.reports]; omega),
        List.getElem?_eq_none (by rw [hs.reports]; omega), entry_pushOut (by omega)]

/-! ### A request that no id refers to -/

theorem next_le_apply (step : Step) : s.next ≤ (step.apply s).next := by
  cases step with
  | submit timestamp sid id device => simp [Step.apply, submit, next]
  | other => simp [Step.apply, next]
  | complete timestamp refId device error => exact next_complete.ge
  | quiet => exact le_rfl
  | pushOut => exact next_pushOut.ge

theorem next_apply_le (step : Step) : (step.apply s).next ≤ s.next + 1 := by
  cases step with
  | submit timestamp sid id device => exact next_submit.le
  | other => simp [Step.apply, next, Nat.add_assoc]
  | complete timestamp refId device error => exact next_complete.le.trans (Nat.le_succ _)
  | quiet => exact Nat.le_succ _
  | pushOut => exact next_pushOut.le.trans (Nat.le_succ _)

/-- Only a submission makes an id refer to a request, and only to its own. -/
theorem idMapping_apply (hnumber : number < s.next)
    (hid : (step.apply s).idMapping id = some number) : s.idMapping id = some number := by
  cases step with
  | submit timestamp sid id' device =>
    simp only [Step.apply, submit] at hid
    split_ifs at hid with hne
    · by_cases heq : id = id'
      · subst heq
        rw [Function.update_self] at hid
        exact absurd (Option.some.inj hid) hnumber.ne'
      · rwa [Function.update_of_ne heq] at hid
    · exact hid
  | other => exact hid
  | complete timestamp refId device error =>
    simp only [Step.apply, complete] at hid
    split at hid
    · exact hid
    · next m request hfind =>
      simp only [settle] at hid
      by_cases heq : id = request.sid
      · subst heq
        simp at hid
      · rwa [Function.update_of_ne heq] at hid
  | quiet => exact hid
  | pushOut =>
    simp only [Step.apply, pushOut] at hid
    split at hid
    · exact hid
    · exact hid
    · next request queue hqueue =>
      simp only at hid
      by_cases heq : id = request.sid
      · subst heq
        simp at hid
      · rwa [Function.update_of_ne heq] at hid

theorem outcome_apply (hs : s.Consistent) (hnumber : number < s.next)
    (hfree : ∀ id, s.idMapping id ≠ some number) :
    (step.apply s).outcome number = s.outcome number := by
  cases step with
  | submit timestamp sid id device => exact outcome_submit hnumber
  | other => exact outcome_other hnumber
  | complete timestamp refId device error => exact outcome_complete hs (hfree refId)
  | quiet => rfl
  | pushOut => exact outcome_pushOut hs

/-- What is said of a request is settled when no id refers to it any more. -/
theorem outcome_run (hs : s.Consistent) (hnumber : number < s.next)
    (hfree : ∀ id, s.idMapping id ≠ some number) (steps : List Step) :
    (run Step.apply steps s).outcome number = s.outcome number := by
  induction steps generalizing s with
  | nil => rfl
  | cons step steps ih =>
    rw [run_cons, ih (hs.apply step) (hnumber.trans_le (next_le_apply step))
      (fun id hid => hfree id (idMapping_apply hnumber hid)), outcome_apply hs hnumber hfree]

/-! ### A request that an id refers to -/

/-- The request stays as it is while no step takes its id away. -/
theorem stays (hs : s.Consistent) (hid : s.idMapping id = some number)
    (hends : ¬ Ends id s step) :
    (step.apply s).idMapping id = some number ∧
      (step.apply s).entry number = s.entry number := by
  obtain ⟨hne, _⟩ := hs.mapped hid
  obtain ⟨hpopped, hnext⟩ := hs.number_lt hid
  cases step with
  | submit timestamp sid id' device =>
    refine ⟨?_, entry_append hnext _ _ _⟩
    simp only [Step.apply, submit]
    split_ifs
    · rw [Function.update_of_ne (fun heq => hends heq.symm)]
      exact hid
    · exact hid
  | other => exact ⟨hid, entry_append hnext _ s.idMapping s.depth⟩
  | complete timestamp refId device error =>
    simp only [Step.apply, complete]
    split
    · exact ⟨hid, rfl⟩
    · next m request hfind =>
      obtain ⟨href, hentry, hsid, -⟩ := hs.of_find hfind
      have hrefId : id ≠ refId := fun heq => hends heq.symm
      have hm : number ≠ m := by
        rintro rfl
        exact hrefId (hs.id_unique hid href)
      refine ⟨?_, entry_settle_of_ne hm hentry⟩
      simp only [settle]
      rw [hsid, Function.update_of_ne hrefId]
      exact hid
  | quiet => exact ⟨hid, rfl⟩
  | pushOut =>
    cases hqueue : s.queue with
    | nil => simp [Step.apply, pushOut, hqueue, hid]
    | cons e queue =>
      have hfront := entry_front hqueue
      obtain ⟨r, -, hentry, hsid, -⟩ := hs.find hid
      have hnumber : number ≠ s.popped := by
        rintro rfl
        obtain rfl := hfront.symm.trans hentry
        exact hends ⟨r, queue, hqueue, hsid⟩
      refine ⟨?_, entry_pushOut hnumber⟩
      cases e with
      | none => simpa only [Step.apply, pushOut, hqueue] using hid
      | some request =>
        rw [Step.apply, (pushOut_of_request hqueue).2, Function.update_of_ne]
        · exact hid
        · rintro rfl
          exact hends ⟨request, queue, hqueue, rfl⟩

/-- The step that takes the id away decides what is said of the request. -/
theorem outcome_of_ends (hs : s.Consistent) (hid : s.idMapping id = some number)
    {request : Cached} (hentry : s.entry number = some request) (hends : Ends id s step) :
    (∀ id', (step.apply s).idMapping id' ≠ some number) ∧
      (step.apply s).outcome number = some (step.result request.timestamp) := by
  obtain ⟨_, hnext⟩ := hs.number_lt hid
  obtain ⟨r, hfind, hentry', hsid, hlatency, herror⟩ := hs.find hid
  cases hentry.symm.trans hentry'
  have houtcome : s.outcome number = some (0, false) := by
    rw [outcome_of_entry hs hentry, hlatency, herror]
  have hfree : (step.apply s).idMapping id ≠ some number →
      ∀ id', (step.apply s).idMapping id' ≠ some number := by
    intro hid' id' hmapped
    obtain rfl := hs.id_unique hid (idMapping_apply hnext hmapped)
    exact hid' hmapped
  obtain ⟨hne, _⟩ := hs.mapped hid
  cases step with
  | submit timestamp sid id' device =>
    obtain rfl : id' = id := hends
    refine ⟨hfree ?_, (outcome_submit hnext).trans houtcome⟩
    simp only [Step.apply, submit, if_pos hne, Function.update_self, ne_eq, Option.some.injEq]
    exact hnext.ne'
  | other => exact hends.elim
  | complete timestamp refId device error =>
    obtain rfl : refId = id := hends
    refine ⟨hfree ?_, outcome_complete_self hs hid hentry⟩
    simp [Step.apply, complete, hfind, settle, hsid]
  | quiet => exact hends.elim
  | pushOut =>
    obtain ⟨request', queue, hqueue, rfl⟩ := hends
    refine ⟨hfree ?_, (outcome_pushOut hs).trans houtcome⟩
    rw [Step.apply, (pushOut_of_request hqueue).2]
    simp

/-- A request that an id refers to is either still waiting at the end of a run or has met the
first step that took the id away. -/
theorem Consistent.fate (hs : s.Consistent) (hid : s.idMapping id = some number)
    {request : Cached} (hentry : s.entry number = some request) (steps : List Step) :
    (run Step.apply steps s).idMapping id = some number ∨
      ∃ mid step rest, steps = mid ++ step :: rest ∧
        (∀ m₁ x m₂, mid = m₁ ++ x :: m₂ → ¬ Ends id (run Step.apply m₁ s) x) ∧
        (run Step.apply mid s).idMapping id = some number ∧
        Ends id (run Step.apply mid s) step ∧
        (run Step.apply steps s).outcome number = some (step.result request.timestamp) := by
  induction steps generalizing s with
  | nil => exact Or.inl hid
  | cons step steps ih =>
    by_cases hends : Ends id s step
    · refine Or.inr ⟨[], step, steps, rfl, by simp, hid, hends, ?_⟩
      obtain ⟨hfree, houtcome⟩ := outcome_of_ends hs hid hentry hends
      have hnext := (hs.number_lt hid).2.trans_le (next_le_apply step)
      rw [run_cons, outcome_run (hs.apply step) hnext hfree, houtcome]
    · obtain ⟨hid', hentry'⟩ := stays hs hid hends
      rcases ih (hs.apply step) hid' (hentry'.trans hentry) with hend | hmet
      · exact Or.inl hend
      · obtain ⟨mid, x, rest, rfl, hmid, hmapped, hx, houtcome⟩ := hmet
        refine Or.inr ⟨step :: mid, x, rest, rfl, ?_, hmapped, hx, houtcome⟩
        intro m₁ y m₂ hsplit
        cases m₁ with
        | nil =>
          obtain ⟨rfl, -⟩ := List.cons.inj hsplit
          exact hends
        | cons z m₁ =>
          obtain ⟨rfl, htail⟩ := List.cons.inj hsplit
          exact hmid m₁ y m₂ htail

end IoCache

end Octf.Parser
