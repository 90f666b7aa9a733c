import Octf.Node.NodeShadowEventDispatcher

/-! What a handler is given of the events that are dispatched, in any run of the dispatcher. -/
namespace Octf.Node.NodeShadowEventDispatcher
open Foundation Worker

variable {Event Handler TypeIndex : Type*} [DecidableEq Handler] [DecidableEq TypeIndex]

def requests : DispatchOp Event Handler TypeIndex → List (Request Event Handler TypeIndex)
  | .thread choice => choice.requests
  | .others request => [request]
  | _ => []

def received (handler : Handler) (w : Dispatching Event Handler TypeIndex) : List Event :=
  (w.mem.called.filter (·.2 = handler)).map (·.1)

variable (typeid : Event → TypeIndex)

/-- The events that a handler is to be given, while it is registered. -/
def wanted (handler : Handler) (d : NodeShadowEventDispatcher Event Handler TypeIndex)
    (events : List Event) : List Event :=
  if handler ∈ d.handlers then events.filter ((d.eventFilter handler).isEnabled typeid) else []

/-- The event that is given out, when the handler is among those left. -/
def inDelivery (handler : Handler) (w : Dispatching Event Handler TypeIndex) : List Event :=
  match w.place with
  | .inside (.deliver event left) =>
    if handler ∈ left then [event].filter ((w.mem.eventFilter handler).isEnabled typeid) else []
  | _ => []

def pending (handler : Handler) (w : Dispatching Event Handler TypeIndex) : List Event :=
  inDelivery typeid handler w ++ wanted typeid handler w.mem w.mem.eventsQueue

/-- From the one state to the other a handler lost no event and was given none twice, with what was
dispatched in between. -/
structure Serves (handler : Handler) (w w' : Dispatching Event Handler TypeIndex)
    (new : List Event) : Prop where
  registered : handler ∈ w'.mem.handlers ↔ handler ∈ w.mem.handlers
  filter : w'.mem.eventFilter handler = w.mem.eventFilter handler
  dispatched : w'.mem.dispatched = w.mem.dispatched ++ new
  given : received handler w' ++ pending typeid handler w' =
    received handler w ++ pending typeid handler w ++ wanted typeid handler w.mem new

variable {typeid} {handler : Handler} {w w' : Dispatching Event Handler TypeIndex}

theorem wanted_append (d : NodeShadowEventDispatcher Event Handler TypeIndex) (xs ys : List Event) :
    wanted typeid handler d (xs ++ ys) = wanted typeid handler d xs ++
      wanted typeid handler d ys := by
  unfold wanted
  split_ifs
  · exact List.filter_append xs ys
  · rfl

theorem wanted_congr {d d' : NodeShadowEventDispatcher Event Handler TypeIndex}
    (hregistered : handler ∈ d'.handlers ↔ handler ∈ d.handlers)
    (hfilter : d'.eventFilter handler = d.eventFilter handler) (events : List Event) :
    wanted typeid handler d' events = wanted typeid handler d events := by
  unfold wanted
  rw [hfilter]
  exact if_congr hregistered rfl rfl

theorem Serves.refl (w : Dispatching Event Handler TypeIndex) : Serves typeid handler w w [] where
  registered := .rfl
  filter := rfl
  dispatched := (List.append_nil _).symm
  given := by simp [wanted]

theorem Serves.trans {w'' : Dispatching Event Handler TypeIndex} {new new' : List Event}
    (h : Serves typeid handler w w' new) (h' : Serves typeid handler w' w'' new') :
    Serves typeid handler w w'' (new ++ new') where
  registered := h'.registered.trans h.registered
  filter := h'.filter.trans h.filter
  dispatched := by rw [h'.dispatched, h.dispatched, List.append_assoc]
  given := by
    rw [h'.given, h.given, wanted_congr h.registered h.filter, wanted_append,
      List.append_assoc _ _ (_ ++ _),
      List.append_assoc, List.append_assoc]

/-- A step that dispatches nothing and leaves the registrations alone. -/
theorem Serves.quiet {place : Place Unit (Pc Event Handler)}
    {d : NodeShadowEventDispatcher Event Handler TypeIndex}
    (hregistered : handler ∈ d.handlers ↔ handler ∈ w.mem.handlers)
    (hfilter : d.eventFilter handler = w.mem.eventFilter handler)
    (hdispatched : d.dispatched = w.mem.dispatched)
    (hgiven : received handler { w with place := place, mem := d } ++
      pending typeid handler { w with place := place, mem := d } =
        received handler w ++ pending typeid handler w) :
    Serves typeid handler w { w with place := place, mem := d } [] where
  registered := hregistered
  filter := hfilter
  dispatched := hdispatched.trans (List.append_nil _).symm
  given := hgiven.trans (by simp [wanted])

/-- Requests that are not about a handler keep what it is to be given, and add what they
dispatch. -/
theorem Serves.after {requests : List (Request Event Handler TypeIndex)}
    {d : NodeShadowEventDispatcher Event Handler TypeIndex} (hafter : After requests w.mem d)
    (hspares : ∀ r ∈ requests, r.concerns handler = false) :
    Serves typeid handler w { w with mem := d } (requests.flatMap Request.events) where
  registered := hafter.registered handler hspares
  filter := hafter.filter handler hspares
  dispatched := hafter.dispatched
  given := by
    have hin : inDelivery typeid handler { w with mem := d } = inDelivery typeid handler w := by
      unfold inDelivery
      dsimp only
      rw [hafter.filter handler hspares]
    have hreceived : received handler { w with mem := d } = received handler w := by
      unfold received
      dsimp only
      rw [hafter.called]
    unfold pending
    rw [hin, hreceived, wanted_congr (hafter.registered handler hspares)
      (hafter.filter handler hspares),
      hafter.queue, wanted_append, List.append_assoc, List.append_assoc]

/-- The visit of one handler. -/
theorem Serves.visit {choice : Choice Event Handler TypeIndex} {active : Bool} {stopper : Stopper}
    {d : NodeShadowEventDispatcher Event Handler TypeIndex} {event : Event} {visited : Handler}
    {left : List Handler} (hnodup : (visited :: left).Nodup)
    (hspares : ∀ r ∈ choice.requests, r.concerns handler = false) :
    ∃ new, Serves typeid handler ⟨active, .inside (.deliver event (visited :: left)), stopper, d⟩
      ⟨active, .inside (.deliver event left), stopper, d.visit typeid choice event visited⟩
        new := by
  have hnot : visited ∉ left := (List.nodup_cons.mp hnodup).1
  unfold NodeShadowEventDispatcher.visit
  split_ifs with henabled
  · have hcalled : Serves typeid handler
        ⟨active, .inside (.deliver event (visited :: left)), stopper, d⟩
        ⟨active, .inside (.deliver event left), stopper,
          { d with called := d.called ++ [(event, visited)] }⟩ [] := by
      refine .quiet .rfl rfl rfl ?_
      by_cases hvisited : visited = handler
      · subst hvisited
        simp [received, pending, inDelivery, hnot, henabled, wanted]
      · simp [received, pending, inDelivery, hvisited, Ne.symm hvisited, wanted]
    exact ⟨_, hcalled.trans (.after (after_applyAll _ choice.requests) hspares)⟩
  · refine ⟨[], .quiet .rfl rfl rfl ?_⟩
    by_cases hvisited : visited = handler
    · subst hvisited
      simp [received, pending, inDelivery, hnot, henabled, wanted]
    · simp [received, pending, inDelivery, Ne.symm hvisited, wanted]

/-- The thread leaves the events as they are. -/
theorem Serves.move {place place' : Place Unit (Pc Event Handler)} {active : Bool}
    {stopper : Stopper}
    {d : NodeShadowEventDispatcher Event Handler TypeIndex} (signal : ℕ)
    (hplace : ∀ event handler left, place ≠ .inside (.deliver event (handler :: left)))
    (hplace' : ∀ event left, place' ≠ .inside (.deliver event left)) :
    Serves typeid handler ⟨active, place, stopper, d⟩
      ⟨active, place', stopper, { d with eventsInQueueSignal := signal }⟩ [] := by
  refine .quiet .rfl rfl rfl ?_
  have hin : inDelivery typeid handler ⟨active, place, stopper, d⟩ = [] := by
    unfold inDelivery
    dsimp only
    split
    · next event left =>
      cases left with
      | nil => rw [if_neg List.not_mem_nil]
      | cons h left => exact absurd rfl (hplace event h left)
    · rfl
  have hin' : inDelivery typeid handler
      ⟨active, place', stopper, { d with eventsInQueueSignal := signal }⟩ = [] := by
    unfold inDelivery
    dsimp only
    split
    · next event left => exact absurd rfl (hplace' event left)
    · rfl
  unfold pending
  dsimp only
  rw [hin, hin']
  rfl

theorem Serves.fetch {active : Bool} {stopper : Stopper} {event : Event}
    {queue fetched : List Event}
    {order : List Handler} {d : NodeShadowEventDispatcher Event Handler TypeIndex}
    (hqueue : d.eventsQueue = event :: queue) :
    Serves typeid handler ⟨active, .inside .fetch, stopper, d⟩
      ⟨active, .inside (.deliver event (iterated order d.handlers)), stopper,
        { d with eventsQueue := queue, fetched := fetched }⟩ [] := by
  refine .quiet .rfl rfl rfl ?_
  have hmem : handler ∈ iterated order d.handlers ↔ handler ∈ d.handlers :=
    (iterated_perm order d.handlers).mem_iff
  have hwanted : wanted typeid handler d ([event] ++ queue) = _ := wanted_append d [event] queue
  rw [List.singleton_append, ← hqueue] at hwanted
  unfold pending
  dsimp only
  rw [hwanted]
  simp only [received, inDelivery, wanted, hmem, List.nil_append]

/-- One step of the thread or of the others. -/
theorem Serves.step {op : DispatchOp Event Handler TypeIndex} (hinv : Inv w.place w.mem)
    (hop : op.isThread ∨ op.isOthers) (hspares : ∀ r ∈ requests op, r.concerns handler = false) :
    ∃ new, Serves typeid handler w (w.step (calls typeid) () op) new := by
  cases op with
  | activate | deactivate => simp [Op.isThread, Op.isOthers] at hop
  | others request => exact ⟨_, .after (after_apply w.mem request) hspares⟩
  | thread choice =>
    have hthread := threadStep typeid choice w
    generalize w.step (calls typeid) () (.thread choice) = w' at hthread ⊢
    cases hthread with
    | absent | ended | blocked => exact ⟨_, .refl _⟩
    | enter stopper d | leave stopper d =>
      exact ⟨_, .move d.eventsInQueueSignal (by simp) (by simp)⟩
    | woken active stopper d _ => exact ⟨_, .move _ (by simp) (by simp)⟩
    | none active stopper d _ | done active stopper d _ =>
      exact ⟨_, .move d.eventsInQueueSignal (by simp) (by simp)⟩
    | fetched active stopper d event queue hqueue => exact ⟨_, .fetch hqueue⟩
    | visit active stopper d event visited left =>
      exact Serves.visit (hinv.deliver event _ rfl).1 hspares

/-- A run that leaves alone what the handler registered for. -/
theorem Serves.run {ops : List (DispatchOp Event Handler TypeIndex)} (hinv : Inv w.place w.mem)
    (hops : ∀ op ∈ ops, op.isThread ∨ op.isOthers)
    (hspares : ∀ op ∈ ops, ∀ r ∈ requests op, r.concerns handler = false) :
    ∃ new, Serves typeid handler w (run (Worker.step (calls typeid) ()) ops w) new := by
  induction ops generalizing w with
  | nil => exact ⟨_, .refl w⟩
  | cons op ops ih =>
    obtain ⟨new, hstep⟩ : ∃ new, Serves typeid handler w (w.step (calls typeid) () op) new :=
      Serves.step hinv (hops op List.mem_cons_self) (hspares op List.mem_cons_self)
    obtain ⟨new', hrun⟩ := ih (keeps_inv.step op hinv)
      (fun op hop => hops op (List.mem_cons_of_mem _ hop))
      (fun op hop => hspares op (List.mem_cons_of_mem _ hop))
    exact ⟨_, hstep.trans hrun⟩

/-! ### Progress -/

/-- Everything that was dispatched first, up to a number of events, is out of the hands of the
thread. -/
def GivenOut (n : ℕ) (w : Dispatching Event Handler TypeIndex) : Prop :=
  n < w.mem.fetched.length ∨
    n = w.mem.fetched.length ∧ ∀ event left, w.place ≠ .inside (.deliver event left)

/-- The steps of the thread until it fetches an event. -/
def toFetch : Place Unit (Pc Event Handler) → ℕ
  | .absent | .ended | .inside .fetch => 0
  | .inside .wait => 1
  | .ahead _ => 2
  | .inside (.deliver _ left) => left.length + 3

def rank (n bound : ℕ) (w : Dispatching Event Handler TypeIndex) : ℕ :=
  (n - w.mem.fetched.length) * (bound + 4) + toFetch w.place

structure Running (w : Dispatching Event Handler TypeIndex) : Prop where
  active : w.active
  away : w.stopper = .away
  absent : w.place ≠ .absent
  ended : w.place ≠ .ended
  inv : Inv w.place w.mem

theorem Running.step {op : DispatchOp Event Handler TypeIndex} (h : Running w)
    (hop : op.isThread ∨ op.isOthers) : Running (w.step (calls typeid) () op) := by
  have hinv : Inv (w.step (calls typeid) () op).place (w.step (calls typeid) () op).mem :=
    keeps_inv.step op h.inv
  cases op with
  | activate | deactivate => simp [Op.isThread, Op.isOthers] at hop
  | others request => exact ⟨h.active, h.away, h.absent, h.ended, hinv⟩
  | thread choice =>
    have hthread := threadStep typeid choice w
    generalize w.step (calls typeid) () (.thread choice) = w' at hthread hinv ⊢
    cases hthread with
    | absent => exact absurd rfl h.absent
    | ended => exact absurd rfl h.ended
    | leave => exact absurd h.active Bool.false_ne_true
    | _ => exact ⟨h.active, h.away, by simp, by simp, hinv⟩

theorem Running.run {ops : List (DispatchOp Event Handler TypeIndex)} (h : Running w)
    (hops : ∀ op ∈ ops, op.isThread ∨ op.isOthers) :
    Running (run (Worker.step (calls typeid) ()) ops w) := by
  induction ops generalizing w with
  | nil => exact h
  | cons op ops ih =>
    exact ih (h.step (hops op List.mem_cons_self)) fun op hop =>
      hops op (List.mem_cons_of_mem _ hop)

omit [DecidableEq Handler] [DecidableEq TypeIndex] in
theorem running_constructed : Running (constructed : Dispatching Event Handler TypeIndex) :=
  ⟨rfl, rfl, nofun, nofun, rfl, le_rfl, List.nodup_nil, nofun⟩

variable {n bound : ℕ}

/-- The first events are in the queue or were, and none has more handlers than the bound. -/
structure Live (n bound : ℕ) (w : Dispatching Event Handler TypeIndex) : Prop
    extends running : Running w where
  bounded : w.mem.handlers.length ≤ bound
  dispatched : n ≤ w.mem.dispatched.length

theorem Live.step {op : DispatchOp Event Handler TypeIndex} (h : Live n bound w)
    (hop : op.isThread ∨ op.isOthers) (hregisters : ∀ r ∈ requests op, r.registers = false) :
    Live n bound (w.step (calls typeid) () op) := by
  suffices hboth : (w.step (calls typeid) () op).mem.handlers.length ≤ bound ∧
      n ≤ (w.step (calls typeid) () op).mem.dispatched.length from
        ⟨h.running.step hop, hboth.1, hboth.2⟩
  cases op with
  | activate | deactivate => simp [Op.isThread, Op.isOthers] at hop
  | others request =>
    have hafter := after_apply w.mem request
    refine ⟨(hafter.length hregisters).trans h.bounded, ?_⟩
    change n ≤ (request.apply w.mem).dispatched.length
    rw [hafter.dispatched, List.length_append]
    exact h.dispatched.trans (Nat.le_add_right _ _)
  | thread choice =>
    have hthread := threadStep typeid choice w
    generalize w.step (calls typeid) () (.thread choice) = w' at hthread ⊢
    cases hthread with
    | visit active stopper d event visited left =>
      obtain ⟨given, -, rs, hrs, hafter⟩ := after_visit typeid d choice event visited
      refine ⟨(hafter.length fun r hr => hregisters r (hrs hr)).trans h.bounded, ?_⟩
      rw [hafter.dispatched, List.length_append]
      exact h.dispatched.trans (Nat.le_add_right _ _)
    | _ => exact ⟨h.bounded, h.dispatched⟩

theorem GivenOut.step {op : DispatchOp Event Handler TypeIndex} (h : GivenOut n w)
    (hop : op.isThread ∨ op.isOthers) : GivenOut n (w.step (calls typeid) () op) := by
  cases op with
  | activate | deactivate => simp [Op.isThread, Op.isOthers] at hop
  | others request =>
    unfold GivenOut at h ⊢
    simpa only [Worker.step, calls, (after_apply w.mem request).fetched] using h
  | thread choice =>
    have hthread := threadStep typeid choice w
    generalize w.step (calls typeid) () (.thread choice) = w' at hthread ⊢
    cases hthread with
    | absent | ended | blocked => exact h
    | enter | leave | woken | none | done => exact h.imp id fun h => ⟨h.1, by simp⟩
    | fetched active stopper d event queue _ =>
      refine .inl ?_
      rw [List.length_append, List.length_singleton, Nat.lt_succ_iff]
      exact h.elim le_of_lt fun h => h.1.le
    | visit active stopper d event visited left =>
      obtain ⟨given, -, rs, -, hafter⟩ := after_visit typeid d choice event visited
      rcases h with h | h
      · exact .inl (hafter.fetched ▸ h)
      · exact absurd rfl (h.2 event (visited :: left))

theorem GivenOut.run {ops : List (DispatchOp Event Handler TypeIndex)} (h : GivenOut n w)
    (hops : ∀ op ∈ ops, op.isThread ∨ op.isOthers) :
    GivenOut n (run (Worker.step (calls typeid) ()) ops w) := by
  induction ops generalizing w with
  | nil => exact h
  | cons op ops ih =>
    exact ih (h.step (hops op List.mem_cons_self)) fun op hop =>
      hops op (List.mem_cons_of_mem _ hop)

/-- Every step of the thread brings it nearer. -/
theorem Live.rank_lt {choice : Choice Event Handler TypeIndex} (h : Live n bound w)
    (hn : ¬ GivenOut n w) :
    rank n bound (w.step (calls typeid) () (.thread choice)) < rank n bound w := by
  have hdrained : w.mem.eventsQueue = [] → n ≤ w.mem.fetched.length := fun hqueue => by
    have hdispatched := h.dispatched
    rwa [h.inv.fifo, hqueue, List.append_nil] at hdispatched
  have hfetching : (∀ event left, w.place ≠ .inside (.deliver event left)) →
    w.mem.fetched.length < n := by
    intro hplace
    by_contra hle
    rcases (not_lt.mp hle).lt_or_eq with hlt | heq
    · exact hn (.inl hlt)
    · exact hn (.inr ⟨heq, hplace⟩)
  have hthread := threadStep typeid choice w
  generalize w.step (calls typeid) () (.thread choice) = w' at hthread ⊢
  cases hthread with
  | absent => exact absurd rfl h.absent
  | ended => exact absurd rfl h.ended
  | leave => exact absurd h.active Bool.false_ne_true
  | enter | woken => exact Nat.add_lt_add_left (by simp [toFetch]) _
  | blocked active stopper d hzero =>
    -- with no post there is nothing in the queue
    have hsignal := h.inv.signal
    dsimp only at hsignal
    rw [hzero] at hsignal
    exact absurd (hdrained (List.eq_nil_of_length_eq_zero (Nat.le_zero.mp hsignal)))
      (not_le.mpr (hfetching (by simp)))
  | none active stopper d hqueue =>
    exact absurd (hdrained hqueue) (not_le.mpr (hfetching (by simp)))
  | fetched active stopper d event queue hqueue =>
    have hlt : d.fetched.length < n := hfetching (by simp)
    have hlength := (iterated_perm choice.order d.handlers).length_eq
    have hbounded : d.handlers.length ≤ bound := h.bounded
    obtain ⟨k, rfl⟩ : ∃ k, n = d.fetched.length + 1 + k := Nat.exists_eq_add_of_le hlt
    have hk : d.fetched.length + 1 + k - d.fetched.length = k + 1 := by omega
    simp only [rank, toFetch, List.length_append, List.length_singleton, hlength, hk,
      Nat.add_sub_cancel_left, Nat.succ_mul]
    omega
  | visit active stopper d event visited left =>
    obtain ⟨given, -, rs, -, hafter⟩ := after_visit typeid d choice event visited
    simp only [rank, hafter.fetched]
    exact Nat.add_lt_add_left (by simp [toFetch]) _
  | done => exact Nat.add_lt_add_left (by simp [toFetch]) _

/-- However the others dispatch, so many steps of the thread give out what was dispatched first. -/
theorem Live.givenOut {ops : List (DispatchOp Event Handler TypeIndex)} (h : Live n bound w)
    (hops : ∀ op ∈ ops, op.isThread ∨ op.isOthers)
    (hregisters : ∀ op ∈ ops, ∀ r ∈ requests op, r.registers = false)
    (hcount : rank n bound w ≤ ops.countP Op.isThread) :
    GivenOut n (run (Worker.step (calls typeid) ()) ops w) := by
  induction ops generalizing w with
  | nil =>
    rw [List.countP_nil, Nat.le_zero, rank, Nat.add_eq_zero_iff] at hcount
    have hle : n ≤ w.mem.fetched.length := by
      have hzero := (Nat.mul_eq_zero.mp hcount.1).resolve_right (by omega)
      omega
    rcases hle.lt_or_eq with hlt | heq
    · exact .inl hlt
    · refine .inr ⟨heq, fun event left hplace => ?_⟩
      rw [run_nil] at hplace
      rw [hplace] at hcount
      exact absurd hcount.2 (by simp [toFetch])
  | cons op ops ih =>
    by_cases hn : GivenOut n w
    · exact hn.run hops
    have hstep : Live n bound (w.step (calls typeid) () op) :=
      h.step (hops op List.mem_cons_self) (hregisters op List.mem_cons_self)
    refine ih hstep (fun op hop => hops op (List.mem_cons_of_mem _ hop))
      (fun op hop => hregisters op (List.mem_cons_of_mem _ hop)) ?_
    cases op with
    | activate | deactivate =>
      exact absurd (hops _ List.mem_cons_self) (by simp [Op.isThread, Op.isOthers])
    | others request =>
      rw [List.countP_cons_of_neg (by simp [Op.isThread])] at hcount
      simpa only [rank, Worker.step, calls, (after_apply w.mem request).fetched] using hcount
    | thread choice =>
      rw [List.countP_cons_of_pos (by simp [Op.isThread])] at hcount
      have hlt : rank n bound (w.step (calls typeid) () (.thread choice)) < rank n bound w :=
        h.rank_lt hn
      exact Nat.le_of_lt_succ (hlt.trans_le hcount)

/-- What is pending then was dispatched since. -/
theorem Serves.pending_suffix {new : List Event} (h : Serves typeid handler w w' new)
    (hinv : Inv w'.place w'.mem) (hgiven : GivenOut w.mem.dispatched.length w')
    (hregistered : handler ∈ w.mem.handlers) :
    pending typeid handler w' <:+ wanted typeid handler w.mem new := by
  have hle : w.mem.dispatched.length ≤ w'.mem.fetched.length :=
    hgiven.elim le_of_lt fun h => h.1.le
  have hsplit : w.mem.dispatched ++ new = w'.mem.fetched ++ w'.mem.eventsQueue :=
    h.dispatched.symm.trans hinv.fifo
  obtain ⟨since, hfetched⟩ : w.mem.dispatched <+: w'.mem.fetched :=
    List.prefix_of_prefix_length_le ⟨new, hsplit⟩ ⟨_, rfl⟩ hle
  have hnew : new = since ++ w'.mem.eventsQueue := by
    rw [← hfetched, List.append_assoc] at hsplit
    exact List.append_cancel_left hsplit
  unfold pending
  rw [wanted_congr h.registered h.filter, hnew, wanted_append]
  by_cases hplace : ∃ event left, w'.place = .inside (.deliver event left)
  · obtain ⟨event, left, hplace⟩ := hplace
    have hlast := (hinv.deliver event left hplace).2
    have hsince : since ≠ [] := by
      rintro rfl
      rw [List.append_nil] at hfetched
      rcases hgiven with hlt | ⟨-, hnot⟩
      · rw [hfetched] at hlt
        exact absurd hlt (lt_irrefl _)
      · exact hnot event left hplace
    rw [← hfetched, List.getLast?_append_of_ne_nil _ hsince] at hlast
    obtain ⟨before, rfl⟩ := List.getLast?_eq_some_iff.mp hlast
    have hin : inDelivery typeid handler w' <:+ wanted typeid handler w.mem [event] := by
      unfold inDelivery wanted
      rw [hplace, if_pos hregistered, h.filter]
      dsimp only
      split_ifs
      · exact List.suffix_refl _
      · exact List.nil_suffix
    obtain ⟨skipped, hskipped⟩ := hin
    exact ⟨wanted typeid handler w.mem before ++ skipped, by
      rw [wanted_append, ← hskipped, List.append_assoc, List.append_assoc, List.append_assoc]⟩
  · have hin : inDelivery typeid handler w' = [] := by
      unfold inDelivery
      split
      · exact absurd ⟨_, _, ‹_›⟩ hplace
      · rfl
    rw [hin, List.nil_append]
    exact ⟨_, rfl⟩

/-! ### Runs of the dispatcher -/

/-- While it stays registered a handler is given each event that it enabled, once and in the order
of dispatch; so many steps of the thread give it what was dispatched first, whatever is dispatched
meanwhile. -/
theorem registered_run (typeid : Event → TypeIndex) (handler : Handler)
    (ops ops' : List (DispatchOp Event Handler TypeIndex))
    (hops : ∀ op ∈ ops ++ ops', op.isThread ∨ op.isOthers)
    (hspares : ∀ op ∈ ops', ∀ r ∈ requests op, r.concerns handler = false) :
    let w := run (Worker.step (calls typeid) ()) ops constructed
    let w' := run (Worker.step (calls typeid) ()) ops' w
    handler ∈ w.mem.handlers →
      (∃ new, w'.mem.dispatched = w.mem.dispatched ++ new ∧
        received handler w' ++ pending typeid handler w' = received handler w ++
          pending typeid handler w ++ new.filter ((w.mem.eventFilter handler).isEnabled typeid)) ∧
      ((∀ op ∈ ops', ∀ r ∈ requests op, r.registers = false) →
        rank w.mem.dispatched.length w.mem.handlers.length w ≤ ops'.countP Op.isThread →
          received handler w ++ pending typeid handler w <+: received handler w') := by
  intro w w' hregistered
  have hw : Running w := running_constructed.run fun op hop => hops op (List.mem_append_left _ hop)
  have hops' : ∀ op ∈ ops', op.isThread ∨ op.isOthers :=
    fun op hop => hops op (List.mem_append_right _ hop)
  obtain ⟨new, hserves⟩ : ∃ new, Serves typeid handler w w' new := Serves.run hw.inv hops' hspares
  have hwanted : wanted typeid handler w.mem new =
      new.filter ((w.mem.eventFilter handler).isEnabled typeid) := if_pos hregistered
  refine ⟨⟨new, hserves.dispatched, hwanted ▸ hserves.given⟩, fun hregisters hcount => ?_⟩
  have hlive : Live w.mem.dispatched.length w.mem.handlers.length w := ⟨hw, le_rfl, le_rfl⟩
  have hgiven : GivenOut w.mem.dispatched.length w' := hlive.givenOut hops' hregisters hcount
  obtain ⟨since, hsince⟩ := hserves.pending_suffix (hw.run hops').inv hgiven hregistered
  refine ⟨since, ?_⟩
  have hall := hserves.given
  rw [← hsince, ← List.append_assoc] at hall
  exact (List.append_cancel_right hall).symm

/-- One event is in the queue when another one is dispatched. -/
theorem registered_run_twoEvents :
    let typeid := fun event : ℕ => event % 2
    let w : Dispatching ℕ ℕ ℕ := run (Worker.step (calls typeid) ())
      [.others (.registerEventHandler 7), .others (.enable 7 0), .thread {},
        .others (.dispatchEvent 4)] constructed
    received 7 w ++ pending typeid 7 w <+: received 7 (run (Worker.step (calls typeid) ())
      [.thread {}, .others (.dispatchEvent 5), .thread {}, .thread {}, .thread {}, .thread {},
        .thread {}] w) :=
  (registered_run _ 7 _ _ (by decide) (by decide) (by decide)).2 (by decide) (by decide)

/-- A handler that is not registered is given at most what is given out at that moment. -/
theorem unregistered_run (typeid : Event → TypeIndex) (handler : Handler)
    (ops ops' : List (DispatchOp Event Handler TypeIndex))
    (hops : ∀ op ∈ ops ++ ops', op.isThread ∨ op.isOthers)
    (hspares : ∀ op ∈ ops', ∀ r ∈ requests op, r.concerns handler = false) :
    let w := run (Worker.step (calls typeid) ()) ops constructed
    let w' := run (Worker.step (calls typeid) ()) ops' w
    handler ∉ w.mem.handlers →
      received handler w' ++ inDelivery typeid handler w' =
        received handler w ++ inDelivery typeid handler w := by
  intro w w' hregistered
  have hw : Running w := running_constructed.run fun op hop => hops op (List.mem_append_left _ hop)
  obtain ⟨new, hserves⟩ : ∃ new, Serves typeid handler w w' new :=
    Serves.run hw.inv (fun op hop => hops op (List.mem_append_right _ hop)) hspares
  have hnone : ∀ events, wanted typeid handler w.mem events = [] := fun events => if_neg hregistered
  simpa only [pending, wanted_congr hserves.registered hserves.filter, hnone, List.append_nil] using
    hserves.given

/-- The handler is unregistered while an event is given out that it has not seen yet. -/
theorem unregistered_run_inDelivery :
    let typeid := fun event : ℕ => event % 2
    let w : Dispatching ℕ ℕ ℕ := run (Worker.step (calls typeid) ())
      [.others (.registerEventHandler 7), .others (.enable 7 0), .thread {},
        .others (.dispatchEvent 4), .thread {}, .thread {}, .others (.unregisterEventHandler 7)]
      constructed
    let w' := run (Worker.step (calls typeid) ())
      [.others (.dispatchEvent 6), .thread {}, .thread {}, .thread {}, .thread {}, .thread {}] w
    received 7 w' ++ inDelivery typeid 7 w' = received 7 w ++ inDelivery typeid 7 w :=
  unregistered_run _ 7 _ _ (by decide) (by decide) (by decide)

end Octf.Node.NodeShadowEventDispatcher
