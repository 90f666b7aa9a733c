import Octf.Node.EventDelivery

/-! The end of the dispatcher: its destructor clears the handlers, wakes the thread up and joins
it. -/
namespace Octf.Node.NodeShadowEventDispatcher
open Foundation Worker

variable {Event Handler TypeIndex : Type*} [DecidableEq Handler] [DecidableEq TypeIndex]
  {typeid : Event → TypeIndex} {w w' : Dispatching Event Handler TypeIndex}

/-- There is a post to wake up for, and no handler to fetch an event for. -/
def Released (pc : Pc Event Handler) (d : NodeShadowEventDispatcher Event Handler TypeIndex) :
    Prop :=
  match pc with
  | .wait => 0 < d.eventsInQueueSignal ∧ d.handlers = []
  | .fetch => d.handlers = []
  | .deliver _ _ => True

def stepsLeft : Pc Event Handler → ℕ
  | .wait => 2
  | .fetch => 1
  | .deliver _ left => left.length

theorem iterated_of_none {order handlers : List Handler} (hnone : handlers = []) :
    iterated order handlers = [] := by
  have hperm := iterated_perm order handlers
  rw [hnone] at hperm ⊢
  exact List.perm_nil.mp hperm

theorem quits : Quits (calls typeid) Inv
    (Released : _ → NodeShadowEventDispatcher Event Handler TypeIndex → Prop) stepsLeft where
  release pc d _ _ := by cases pc <;> simp [Released, calls, clear]
  step := by
    intro choice pc d pc' d' h hstep
    cases pc with
    | wait =>
      simp only [calls, step, if_neg h.1.ne'] at hstep
      cases hstep
      exact ⟨h.2, Nat.one_lt_two⟩
    | fetch => cases hqueue : d.eventsQueue with
      | nil =>
        simp only [calls, step, hqueue] at hstep
        cases hstep
      | cons event queue =>
        simp only [calls, step, hqueue] at hstep
        cases hstep
        have hnone : iterated choice.order d.handlers = [] := iterated_of_none h
        exact ⟨trivial, by simp [stepsLeft, hnone]⟩
    | deliver event left => cases left with
      | nil => cases hstep
      | cons handler left =>
        cases hstep
        exact ⟨trivial, Nat.lt_succ_self _⟩

/-- The calls that the thread still makes for the event that it gives out. -/
def copied : Place Unit (Pc Event Handler) → List (Event × Handler)
  | .inside (.deliver event left) => left.map (Prod.mk event)
  | _ => []

/-- From the one state to the other only handlers were called that were copied before. -/
structure Finishing (w w' : Dispatching Event Handler TypeIndex) : Prop where
  stopping : Stopping Released w'
  joining : w'.stopper = .joining
  called : ∃ more, w'.mem.called = w.mem.called ++ more ∧
    (more ++ copied w'.place).Sublist (copied w.place)

theorem Finishing.step (h : Finishing w w') (choice : Choice Event Handler TypeIndex) :
    Finishing w (w'.step (calls typeid) () (.thread choice)) := by
  have hstopping : Stopping Released (w'.step (calls typeid) () (.thread choice)) :=
    h.stopping.thread quits choice
  obtain ⟨more, hmore, hleft⟩ := h.called
  have hthread := threadStep typeid choice w'
  generalize w'.step (calls typeid) () (.thread choice) = w'' at hthread hstopping ⊢
  have hjoining := h.joining
  cases hthread with
  | absent | ended | enter | leave | blocked | woken | none | done =>
    exact ⟨hstopping, hjoining, more, hmore, hleft⟩
  | fetched active stopper d event queue _ =>
    have hhandlers : d.handlers = [] := h.stopping.released hjoining .fetch rfl
    refine ⟨hstopping, hjoining, more, hmore, ?_⟩
    rw [iterated_of_none hhandlers]
    exact hleft
  | visit active stopper d event handler left =>
    obtain ⟨given, hgiven, requests, -, hafter⟩ := after_visit typeid d choice event handler
    refine ⟨hstopping, hjoining, more ++ given, ?_, ?_⟩
    · rw [hafter.called]
      exact (congrArg (· ++ given) hmore).trans (List.append_assoc _ _ _)
    · rw [List.append_assoc]
      exact (((hgiven.append_right _)).append_left more).trans hleft

theorem Finishing.run {ops : List (DispatchOp Event Handler TypeIndex)} (h : Finishing w w')
    (hops : ∀ op ∈ ops, op.isThread) :
      Finishing w (run (Worker.step (calls typeid) ()) ops w') := by
  induction ops generalizing w' with
  | nil => exact h
  | cons op ops ih =>
    have hop := hops op List.mem_cons_self
    cases op with
    | thread choice => exact ih (h.step choice) fun op hop => hops op (List.mem_cons_of_mem _ hop)
    | _ => cases hop

/-- Wherever the thread is, the destructor returns from its join once the thread has made the steps
that are left; after the post only handlers are called that were copied for the event at hand. -/
theorem destructor_returns (typeid : Event → TypeIndex)
    (ops ops' ops'' : List (DispatchOp Event Handler TypeIndex))
    (hops : ∀ op ∈ ops, op.isThread ∨ op.isOthers)
    (hops' : ∀ op ∈ ops', op.isThread ∨ op = .deactivate) (hops'' : ∀ op ∈ ops'', op.isThread) :
    let w := run (Worker.step (calls typeid) ()) (ops ++ ops') constructed
    let posted := w.step (calls typeid) () .deactivate
    let w' := run (Worker.step (calls typeid) ()) ops'' posted
    w.stopper = .releasing →
      (∃ more, w'.mem.called = w.mem.called ++ more ∧ more.Sublist (copied w.place)) ∧
      (w.place.rank stepsLeft ≤ ops''.length →
        (run (Worker.step (calls typeid) ()) (ops'' ++ [.deactivate]) posted).stopper = .away) := by
  intro w posted w' hreleasing
  have hrunning : Running (run (Worker.step (calls typeid) ()) ops constructed) :=
    running_constructed.run hops
  have hbefore : Stopping Released (run (Worker.step (calls typeid) ()) ops constructed) :=
    ⟨fun _ => ⟨hrunning.away, hrunning.absent⟩, fun h => absurd hrunning.away h,
      fun h => absurd (hrunning.away.symm.trans h) nofun⟩
  have halone : ∀ ops : List (DispatchOp Event Handler TypeIndex),
      (∀ op ∈ ops, op.isThread ∨ op = .deactivate) → Unhindered (calls typeid) Released ops :=
    fun ops hops event hevent => by simpa [Op.isThread] using hops _ hevent
  have hsplit : w = run (Worker.step (calls typeid) ()) ops' (run _ ops constructed) :=
    run_append ..
  have hinv : Inv w.place w.mem := hsplit ▸ keeps_inv.run hrunning.inv
  have hw : Stopping Released w :=
    hsplit ▸ Stopping.run keeps_inv quits hrunning.inv hbefore (halone ops' hops')
  have hposted : posted = { w with mem := w.mem.clear, stopper := .joining } := by
    change w.deactivate (calls typeid) = _
    unfold deactivate
    rw [hreleasing]
    rfl
  have hfinishing : Finishing w posted := by
    refine ⟨hw.step quits hinv .deactivate (halone _ (by simp)), by rw [hposted], [], ?_, ?_⟩
    · rw [hposted, List.append_nil]
      rfl
    · rw [hposted]
      exact .refl _
  refine ⟨?_, fun hcount => ?_⟩
  · obtain ⟨more, hcalled, hmore⟩ := (hfinishing.run hops'').called
    exact ⟨more, hcalled, (List.sublist_append_left _ _).trans hmore⟩
  · refine deactivate_of_ended (ended_of_joining quits hfinishing.stopping hfinishing.joining
      (fun op hop => .inl (hops'' op hop)) (halone ops'' fun op hop => .inl (hops'' op hop)) ?_)
    rw [List.countP_eq_length.mpr hops'', hposted]
    exact hcount

/-- The destructor begins while an event is given out to its second handler. -/
theorem destructor_returns_inDelivery :
    let typeid := fun event : ℕ => event % 2
    let w : Dispatching ℕ ℕ ℕ := run (Worker.step (calls typeid) ())
      ([.others (.registerEventHandler 8), .others (.registerEventHandler 7), .others (.enable 8 0),
        .others (.dispatchEvent 4), .others (.dispatchEvent 6), .thread {}, .thread {}, .thread {},
        .thread {}] ++ [.deactivate]) constructed
    w.stopper = .releasing ∧
      (run (Worker.step (calls typeid) ()) ([.thread {}, .thread {}, .thread {}] ++ [.deactivate])
        (w.step (calls typeid) () .deactivate)).stopper = .away :=
  ⟨rfl, (destructor_returns _ _ _ [.thread {}, .thread {}, .thread {}] (by decide) (by simp)
    (by decide) rfl).2 (by decide)⟩

end Octf.Node.NodeShadowEventDispatcher
