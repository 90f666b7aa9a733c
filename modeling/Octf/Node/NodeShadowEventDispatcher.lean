import Octf.Foundation.Worker
import Mathlib.Data.Finset.Erase
import Mathlib.Data.Finset.Insert
import Mathlib.Data.List.Nodup

/-! The thread that hands the events of a node to their handlers. Others dispatch events and
register handlers under a mutex, each in one step; a handler that is called does so as well. -/
namespace Octf.Node
open Foundation Worker

/-- The types of events that are enabled. -/
abbrev NodeEventFilter (TypeIndex : Type*) := Finset TypeIndex

def NodeEventFilter.isEnabled {Event TypeIndex : Type*} [DecidableEq TypeIndex]
    (typeid : Event → TypeIndex) (filter : NodeEventFilter TypeIndex) (event : Event) : Bool :=
  typeid event ∈ filter

/-- The members of the dispatcher and the filters of the handlers, with what became of the
events. -/
structure NodeShadowEventDispatcher (Event Handler TypeIndex : Type*) where
  /-- without repetitions, an `unordered_set` in the source -/
  handlers : List Handler := []
  eventsQueue : List Event := []
  /-- the count of the semaphore -/
  eventsInQueueSignal : ℕ := 0
  eventFilter : Handler → NodeEventFilter TypeIndex := fun _ => ∅
  dispatched : List Event := []
  fetched : List Event := []
  /-- the calls of `onEvent` -/
  called : List (Event × Handler) := []

namespace NodeShadowEventDispatcher

variable {Event Handler TypeIndex : Type*} [DecidableEq Handler] [DecidableEq TypeIndex]

inductive Request (Event Handler TypeIndex : Type*) where
  | dispatchEvent (event : Event)
  | registerEventHandler (handler : Handler)
  | unregisterEventHandler (handler : Handler)
  | enable (handler : Handler) (type : TypeIndex)
  | disable (handler : Handler) (type : TypeIndex)

def dispatchEvent (event : Event) (d : NodeShadowEventDispatcher Event Handler TypeIndex) :
    NodeShadowEventDispatcher Event Handler TypeIndex :=
  { d with
    eventsQueue := d.eventsQueue ++ [event]
    eventsInQueueSignal := d.eventsInQueueSignal + 1
    dispatched := d.dispatched ++ [event] }

def registerEventHandler (handler : Handler)
    (d : NodeShadowEventDispatcher Event Handler TypeIndex) :
    NodeShadowEventDispatcher Event Handler TypeIndex :=
  { d with handlers := d.handlers.insert handler }

def unregisterEventHandler (handler : Handler)
    (d : NodeShadowEventDispatcher Event Handler TypeIndex) :
    NodeShadowEventDispatcher Event Handler TypeIndex :=
  { d with handlers := d.handlers.erase handler }

def setFilter (handler : Handler) (change : NodeEventFilter TypeIndex → NodeEventFilter TypeIndex)
    (d : NodeShadowEventDispatcher Event Handler TypeIndex) :
    NodeShadowEventDispatcher Event Handler TypeIndex :=
  { d with eventFilter := Function.update d.eventFilter handler (change (d.eventFilter handler)) }

/-- What `clear` does under the mutex, but for the flag of the thread. -/
def clear (d : NodeShadowEventDispatcher Event Handler TypeIndex) :
    NodeShadowEventDispatcher Event Handler TypeIndex :=
  { d with handlers := [], eventsInQueueSignal := d.eventsInQueueSignal + 1 }

def Request.apply (d : NodeShadowEventDispatcher Event Handler TypeIndex) :
    Request Event Handler TypeIndex → NodeShadowEventDispatcher Event Handler TypeIndex
  | .dispatchEvent event => d.dispatchEvent event
  | .registerEventHandler handler => d.registerEventHandler handler
  | .unregisterEventHandler handler => d.unregisterEventHandler handler
  | .enable handler type => d.setFilter handler (insert type)
  | .disable handler type => d.setFilter handler (·.erase type)

def applyAll (requests : List (Request Event Handler TypeIndex))
    (d : NodeShadowEventDispatcher Event Handler TypeIndex) :
    NodeShadowEventDispatcher Event Handler TypeIndex :=
  requests.foldl Request.apply d

/-- Where `processEvent` is; `deliver` holds the handlers of the copied set that are left. -/
inductive Pc (Event Handler : Type*) where
  | wait
  | fetch
  | deliver (event : Event) (left : List Handler)
  deriving DecidableEq

/-- In which order a set is iterated over, and what a handler asks for while it is called. -/
structure Choice (Event Handler TypeIndex : Type*) where
  order : List Handler := []
  requests : List (Request Event Handler TypeIndex) := []

/-- Any order of the handlers may be that of the iteration. -/
def iterated (order handlers : List Handler) : List Handler :=
  if order.Perm handlers then order else handlers

variable (typeid : Event → TypeIndex)

/-- The body of the loop over the handlers. -/
def visit (choice : Choice Event Handler TypeIndex) (event : Event) (handler : Handler)
    (d : NodeShadowEventDispatcher Event Handler TypeIndex) :
    NodeShadowEventDispatcher Event Handler TypeIndex :=
  if (d.eventFilter handler).isEnabled typeid event then
    applyAll choice.requests { d with called := d.called ++ [(event, handler)] }
  else d

def step (choice : Choice Event Handler TypeIndex) (pc : Pc Event Handler)
    (d : NodeShadowEventDispatcher Event Handler TypeIndex) :
    (Pc Event Handler ⊕ Unit) × NodeShadowEventDispatcher Event Handler TypeIndex :=
  match pc with
  | .wait =>
    if d.eventsInQueueSignal = 0 then (.inl .wait, d)
    else (.inl .fetch, { d with eventsInQueueSignal := d.eventsInQueueSignal - 1 })
  | .fetch => match d.eventsQueue with
    | [] => (.inr (), d)
    | event :: queue => (.inl (.deliver event (iterated choice.order d.handlers)),
        { d with eventsQueue := queue, fetched := d.fetched ++ [event] })
  | .deliver _ [] => (.inr (), d)
  | .deliver event (handler :: left) =>
      (.inl (.deliver event left), d.visit typeid choice event handler)

def calls : Calls Unit (Pc Event Handler) (NodeShadowEventDispatcher Event Handler TypeIndex)
    (Choice Event Handler TypeIndex) (Request Event Handler TypeIndex) where
  enter _ := .wait
  step := step typeid
  release d := (d.clear, true)
  others request d := request.apply d

abbrev Dispatching (Event Handler TypeIndex : Type*) :=
  Worker Unit (Pc Event Handler) (NodeShadowEventDispatcher Event Handler TypeIndex)

abbrev DispatchOp (Event Handler TypeIndex : Type*) :=
  Worker.Op (Choice Event Handler TypeIndex) (Request Event Handler TypeIndex)

/-- As the constructor leaves it. -/
def constructed : Dispatching Event Handler TypeIndex where
  active := true
  place := .ahead ()
  mem := {}

/-! ### Steps of the thread -/

/-- What the thread can do, with the guards. -/
inductive ThreadStep (choice : Choice Event Handler TypeIndex) :
    Dispatching Event Handler TypeIndex → Dispatching Event Handler TypeIndex → Prop
  | absent (active stopper d) : ThreadStep choice ⟨active, .absent, stopper, d⟩
      ⟨active, .absent, stopper, d⟩
  | ended (active stopper d) : ThreadStep choice ⟨active, .ended, stopper, d⟩
      ⟨active, .ended, stopper, d⟩
  | enter (stopper d) : ThreadStep choice ⟨true, .ahead (), stopper, d⟩
      ⟨true, .inside .wait, stopper, d⟩
  | leave (stopper d) : ThreadStep choice ⟨false, .ahead (), stopper, d⟩ ⟨false, .ended, stopper, d⟩
  | blocked (active stopper d) : d.eventsInQueueSignal = 0 →
    ThreadStep choice ⟨active, .inside .wait, stopper, d⟩ ⟨active, .inside .wait, stopper, d⟩
  | woken (active stopper d) : 0 < d.eventsInQueueSignal →
    ThreadStep choice ⟨active, .inside .wait, stopper, d⟩
      ⟨active, .inside .fetch, stopper, { d with eventsInQueueSignal := d.eventsInQueueSignal - 1 }⟩
  | none (active stopper d) : d.eventsQueue = [] →
    ThreadStep choice ⟨active, .inside .fetch, stopper, d⟩ ⟨active, .ahead (), stopper, d⟩
  | fetched (active stopper d event queue) : d.eventsQueue = event :: queue →
    ThreadStep choice ⟨active, .inside .fetch, stopper, d⟩
      ⟨active, .inside (.deliver event (iterated choice.order d.handlers)), stopper,
        { d with eventsQueue := queue, fetched := d.fetched ++ [event] }⟩
  | visit (active stopper d event handler left) :
    ThreadStep choice ⟨active, .inside (.deliver event (handler :: left)), stopper, d⟩
      ⟨active, .inside (.deliver event left), stopper, d.visit typeid choice event handler⟩
  | done (active stopper d event) :
    ThreadStep choice ⟨active, .inside (.deliver event []), stopper, d⟩
      ⟨active, .ahead (), stopper, d⟩

theorem threadStep (choice : Choice Event Handler TypeIndex)
    (w : Dispatching Event Handler TypeIndex) :
    ThreadStep typeid choice w (w.step (calls typeid) () (.thread choice)) := by
  obtain ⟨active, place, stopper, d⟩ := w
  cases place with
  | absent => exact .absent active stopper d
  | ended => exact .ended active stopper d
  | ahead call => cases active with
    | true => exact .enter stopper d
    | false => exact .leave stopper d
  | inside pc => cases pc with
    | wait =>
      by_cases hzero : d.eventsInQueueSignal = 0
      · simpa [Worker.step, thread, calls, step, hzero] using ThreadStep.blocked active
          stopper d hzero
      · simpa [Worker.step, thread, calls, step, hzero] using
          ThreadStep.woken active stopper d (Nat.pos_of_ne_zero hzero)
    | fetch => cases hqueue : d.eventsQueue with
      | nil =>
        simpa [Worker.step, thread, calls, step, hqueue] using ThreadStep.none active
          stopper d hqueue
      | cons event queue =>
        simpa [Worker.step, thread, calls, step, hqueue] using
          ThreadStep.fetched active stopper d event queue hqueue
    | deliver event left => cases left with
      | nil => exact .done active stopper d event
      | cons handler left => exact .visit active stopper d event handler left

/-! ### Requests -/

namespace Request

def events : Request Event Handler TypeIndex → List Event
  | .dispatchEvent event => [event]
  | _ => []

/-- Whether it is about the handler. -/
def concerns (handler : Handler) : Request Event Handler TypeIndex → Bool
  | .dispatchEvent _ => false
  | .registerEventHandler h | .unregisterEventHandler h | .enable h _ | .disable h _ => h = handler

def registers : Request Event Handler TypeIndex → Bool
  | .registerEventHandler _ => true
  | _ => false

end Request

/-- What any number of requests change, and what they do not. -/
structure After (requests : List (Request Event Handler TypeIndex))
    (d d' : NodeShadowEventDispatcher Event Handler TypeIndex) : Prop where
  queue : d'.eventsQueue = d.eventsQueue ++ requests.flatMap Request.events
  signal : d'.eventsInQueueSignal = d.eventsInQueueSignal + (requests.flatMap Request.events).length
  dispatched : d'.dispatched = d.dispatched ++ requests.flatMap Request.events
  fetched : d'.fetched = d.fetched
  called : d'.called = d.called
  nodup : d.handlers.Nodup → d'.handlers.Nodup
  registered : ∀ handler, (∀ r ∈ requests, r.concerns handler = false) →
    (handler ∈ d'.handlers ↔ handler ∈ d.handlers)
  filter : ∀ handler, (∀ r ∈ requests, r.concerns handler = false) →
    d'.eventFilter handler = d.eventFilter handler
  length : (∀ r ∈ requests, r.registers = false) → d'.handlers.length ≤ d.handlers.length

section
variable (d : NodeShadowEventDispatcher Event Handler TypeIndex)

theorem after_apply (request : Request Event Handler TypeIndex) :
    After [request] d (request.apply d) := by
  have hlist : ∀ handler, (∀ r ∈ [request], r.concerns handler = false) →
      request.concerns handler = false := fun _ h => h _ List.mem_cons_self
  cases request with
  | dispatchEvent event =>
    exact ⟨rfl, rfl, rfl, rfl, rfl, id, fun _ _ => .rfl, fun _ _ => rfl, fun _ => le_rfl⟩
  | registerEventHandler h =>
    refine ⟨(List.append_nil _).symm, rfl, (List.append_nil _).symm, rfl, rfl, List.Nodup.insert,
      fun handler hr => ?_, fun _ _ => rfl,
        fun hr => absurd (hr _ List.mem_cons_self) (by simp [Request.registers])⟩
    have hne : h ≠ handler := by simpa [Request.concerns] using hlist handler hr
    simp [Request.apply, registerEventHandler, hne.symm]
  | unregisterEventHandler h =>
    refine ⟨(List.append_nil _).symm, rfl, (List.append_nil _).symm, rfl, rfl, List.Nodup.erase h,
      fun handler hr => ?_, fun _ _ => rfl, fun _ => List.length_erase_le⟩
    have hne : h ≠ handler := by simpa [Request.concerns] using hlist handler hr
    exact List.mem_erase_of_ne hne.symm
  | enable h type | disable h type =>
    refine ⟨(List.append_nil _).symm, rfl, (List.append_nil _).symm, rfl, rfl, id, fun _ _ => .rfl,
      fun handler hr => ?_, fun _ => le_rfl⟩
    have hne : h ≠ handler := by simpa [Request.concerns] using hlist handler hr
    exact Function.update_of_ne hne.symm _ _

omit [DecidableEq TypeIndex] in
theorem After.trans {rs rs' : List (Request Event Handler TypeIndex)}
    {d d' d'' : NodeShadowEventDispatcher Event Handler TypeIndex} (h : After rs d d')
    (h' : After rs' d' d'') : After (rs ++ rs') d d'' where
  queue := by rw [h'.queue, h.queue, List.flatMap_append, List.append_assoc]
  signal := by rw [h'.signal, h.signal, List.flatMap_append, List.length_append, Nat.add_assoc]
  dispatched := by rw [h'.dispatched, h.dispatched, List.flatMap_append, List.append_assoc]
  fetched := h'.fetched.trans h.fetched
  called := h'.called.trans h.called
  nodup hd := h'.nodup (h.nodup hd)
  registered handler hr :=
    (h'.registered handler fun r hmem => hr r (List.mem_append_right _ hmem)).trans
      (h.registered handler fun r hmem => hr r (List.mem_append_left _ hmem))
  filter handler hr :=
    (h'.filter handler fun r hmem => hr r (List.mem_append_right _ hmem)).trans
      (h.filter handler fun r hmem => hr r (List.mem_append_left _ hmem))
  length hr := (h'.length fun r hmem => hr r (List.mem_append_right _ hmem)).trans
    (h.length fun r hmem => hr r (List.mem_append_left _ hmem))

theorem after_applyAll (requests : List (Request Event Handler TypeIndex)) :
    After requests d (applyAll requests d) := by
  induction requests generalizing d with
  | nil =>
    exact ⟨(List.append_nil _).symm, rfl, (List.append_nil _).symm, rfl, rfl, id, fun _ _ => .rfl,
      fun _ _ => rfl, fun _ => le_rfl⟩
  | cons request requests ih => exact (after_apply d request).trans (ih (request.apply d))

/-- A visit changes what the handler asks for, where it is called. -/
theorem after_visit (choice : Choice Event Handler TypeIndex) (event : Event) (handler : Handler) :
    ∃ given, given.Sublist [(event, handler)] ∧ ∃ requests ⊆ choice.requests,
      After requests { d with called := d.called ++ given }
        (d.visit typeid choice event handler) := by
  unfold visit
  split_ifs
  · exact ⟨_, .refl _, _, List.Subset.refl _, after_applyAll _ _⟩
  · refine ⟨[], List.nil_sublist _, [], List.nil_subset _, ?_⟩
    rw [List.append_nil]
    exact after_applyAll d []

end

/-! ### What every step keeps -/

/-- The post that was taken for the event to be fetched. -/
def taken : Place Unit (Pc Event Handler) → ℕ
  | .inside .fetch => 1
  | _ => 0

structure Inv (place : Place Unit (Pc Event Handler))
    (d : NodeShadowEventDispatcher Event Handler TypeIndex) : Prop where
  fifo : d.dispatched = d.fetched ++ d.eventsQueue
  /-- no event waits in the queue without a post for it -/
  signal : d.eventsQueue.length ≤ d.eventsInQueueSignal + taken place
  nodup : d.handlers.Nodup
  deliver : ∀ event left, place = .inside (.deliver event left) →
    left.Nodup ∧ d.fetched.getLast? = some event

theorem iterated_perm (order handlers : List Handler) :
    (iterated order handlers).Perm handlers := by
  unfold iterated
  split_ifs with h
  · exact h
  · exact .refl _

section
variable {place place' : Place Unit (Pc Event Handler)}
  {d d' : NodeShadowEventDispatcher Event Handler TypeIndex}

omit [DecidableEq Handler] [DecidableEq TypeIndex] in
theorem Inv.move (h : Inv place d) (htaken : taken place ≤ taken place')
    (hdeliver : ∀ event left, place' ≠ .inside (.deliver event left)) : Inv place' d :=
  ⟨h.fifo, h.signal.trans (Nat.add_le_add_left htaken _), h.nodup,
    fun event left hplace => absurd hplace (hdeliver event left)⟩

omit [DecidableEq TypeIndex] in
theorem Inv.after (h : Inv place d) {requests : List (Request Event Handler TypeIndex)}
    (hafter : After requests d d') : Inv place d' where
  fifo := by rw [hafter.dispatched, hafter.fetched, hafter.queue, h.fifo, List.append_assoc]
  signal := by
    rw [hafter.queue, hafter.signal, List.length_append]
    have hsignal := h.signal
    omega
  nodup := hafter.nodup h.nodup
  deliver event left hplace := hafter.fetched ▸ h.deliver event left hplace

end

variable {typeid}

theorem keeps_inv : Keeps (calls typeid) ()
    (Inv : _ → NodeShadowEventDispatcher Event Handler TypeIndex → Prop) where
  start _ h := h.move le_rfl nofun
  enter _ _ h := h.move le_rfl nofun
  leave _ _ h := h.move le_rfl nofun
  join _ h := h.move le_rfl nofun
  release place d h := ⟨h.fifo, by
    have hsignal := h.signal
    change _ ≤ d.eventsInQueueSignal + 1 + _
    exact hsignal.trans (by omega), List.nodup_nil, h.deliver⟩
  others request _ d h := h.after (after_apply d request)
  inside := by
    intro choice pc d pc' d' h hstep
    cases pc with
    | wait =>
      simp only [calls, step] at hstep
      split_ifs at hstep with hzero
      · cases hstep
        exact h
      · cases hstep
        refine ⟨h.fifo, ?_, h.nodup, nofun⟩
        have hsignal := h.signal
        simp only [taken] at hsignal ⊢
        omega
    | fetch =>
      simp only [calls, step] at hstep
      cases hqueue : d.eventsQueue with
      | nil =>
        rw [hqueue] at hstep
        cases hstep
      | cons event queue =>
        rw [hqueue] at hstep
        cases hstep
        refine ⟨?_, ?_, h.nodup, ?_⟩
        · rw [h.fifo, hqueue, List.append_assoc, List.singleton_append]
        · have hsignal := h.signal
          simp only [taken, hqueue, List.length_cons] at hsignal ⊢
          omega
        · intro event' left hplace
          cases hplace
          exact ⟨(iterated_perm choice.order d.handlers).nodup_iff.mpr h.nodup, by simp⟩
    | deliver event left => cases left with
      | nil => cases hstep
      | cons handler left =>
        cases hstep
        obtain ⟨hnodup, hlast⟩ := h.deliver event (handler :: left) rfl
        obtain ⟨given, -, requests, -, hafter⟩ := after_visit typeid d choice event handler
        have hcalled : Inv (.inside (.deliver event left))
          { d with called := d.called ++ given } := by
          refine ⟨h.fifo, h.signal, h.nodup, fun event' left' hplace => ?_⟩
          cases hplace
          exact ⟨(List.nodup_cons.mp hnodup).2, hlast⟩
        exact hcalled.after hafter
  next := by
    intro choice pc d call d' h hstep
    cases pc with
    | wait =>
      simp only [calls, step] at hstep
      split_ifs at hstep <;> cases hstep
    | fetch =>
      simp only [calls, step] at hstep
      cases hqueue : d.eventsQueue with
      | nil =>
        rw [hqueue] at hstep
        cases hstep
        exact ⟨h.fifo, by simp [hqueue], h.nodup, nofun⟩
      | cons event queue =>
        rw [hqueue] at hstep
        cases hstep
    | deliver event left => cases left with
      | nil =>
        cases hstep
        exact h.move le_rfl nofun
      | cons handler left => cases hstep

end NodeShadowEventDispatcher
end Octf.Node
