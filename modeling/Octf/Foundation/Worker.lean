import Octf.Foundation.Run

/-! A thread that makes one call after another while a flag is set, and another thread that clears
the flag, releases what a call may wait for and joins. -/
namespace Foundation

/-- The calls of a worker as steps on a memory that others have a hand in as well. A step ends in
the call or gives the next one; the choices are what a step does not decide itself. A step of the
release tells whether it was the last one. -/
structure Calls (Call Pc Mem Choice Event : Type*) where
  enter : Call → Pc
  step : Choice → Pc → Mem → (Pc ⊕ Call) × Mem
  release : Mem → Mem × Bool
  others : Event → Mem → Mem

namespace Worker

inductive Place (Call Pc : Type*) where
  | absent
  /-- ahead of a call, where the flag is looked at -/
  | ahead (call : Call)
  | inside (pc : Pc)
  | ended
  deriving DecidableEq

inductive Stopper where
  | away | releasing | joining
  deriving DecidableEq

inductive Op (Choice Event : Type*) where
  | activate | deactivate
  | thread (choice : Choice)
  | others (event : Event)

end Worker

open Worker

structure Worker (Call Pc Mem : Type*) where
  active : Bool := false
  place : Place Call Pc := .absent
  stopper : Stopper := .away
  mem : Mem

namespace Worker

variable {Call Pc Mem Choice Event : Type*} (calls : Calls Call Pc Mem Choice Event) (first : Call)

def activate (w : Worker Call Pc Mem) : Worker Call Pc Mem :=
  match w.active, w.place, w.stopper with
  | false, .absent, .away => { w with active := true, place := .ahead first }
  | _, _, _ => w

/-- One step of the one who stops the worker; the join waits until the thread has ended. -/
def deactivate (w : Worker Call Pc Mem) : Worker Call Pc Mem :=
  match w.stopper with
  | .away => if w.active then { w with active := false, stopper := .releasing } else w
  | .releasing =>
    let after := calls.release w.mem
    { w with mem := after.1, stopper := if after.2 then .joining else .releasing }
  | .joining => match w.place with
    | .ended => { w with place := .absent, stopper := .away }
    | _ => w

def thread (choice : Choice) (w : Worker Call Pc Mem) : Worker Call Pc Mem :=
  match w.place with
  | .absent | .ended => w
  | .ahead call => { w with place := if w.active then .inside (calls.enter call) else .ended }
  | .inside pc =>
    let after := calls.step choice pc w.mem
    { w with place := after.1.elim .inside .ahead, mem := after.2 }

def step : Op Choice Event → Worker Call Pc Mem → Worker Call Pc Mem
  | .activate, w => w.activate first
  | .deactivate, w => w.deactivate calls
  | .thread choice, w => w.thread calls choice
  | .others event, w => { w with mem := calls.others event w.mem }

/-! ### Invariants -/

variable {calls first} {w : Worker Call Pc Mem} {ops : List (Op Choice Event)}

/-- What every step on the memory keeps, at each place. -/
structure Keeps (calls : Calls Call Pc Mem Choice Event) (first : Call)
    (I : Place Call Pc → Mem → Prop) : Prop where
  start : ∀ mem, I .absent mem → I (.ahead first) mem
  enter : ∀ call mem, I (.ahead call) mem → I (.inside (calls.enter call)) mem
  leave : ∀ call mem, I (.ahead call) mem → I .ended mem
  join : ∀ mem, I .ended mem → I .absent mem
  inside : ∀ choice pc mem pc' mem', I (.inside pc) mem →
    calls.step choice pc mem = (.inl pc', mem') → I (.inside pc') mem'
  next : ∀ choice pc mem call mem', I (.inside pc) mem →
    calls.step choice pc mem = (.inr call, mem') → I (.ahead call) mem'
  release : ∀ place mem, I place mem → I place (calls.release mem).1
  others : ∀ event place mem, I place mem → I place (calls.others event mem)

theorem Keeps.step {I : Place Call Pc → Mem → Prop} (h : Keeps calls first I)
    (op : Op Choice Event) (hw : I w.place w.mem) :
    I (w.step calls first op).place (w.step calls first op).mem := by
  obtain ⟨active, place, stopper, mem⟩ := w
  cases op with
  | activate =>
    change I (activate first _).place (activate first _).mem
    cases active <;> cases place <;> cases stopper <;> first | exact h.start _ hw | exact hw
  | deactivate =>
    change I (deactivate calls _).place (deactivate calls _).mem
    cases stopper with
    | away => cases active <;> exact hw
    | releasing => exact h.release _ _ hw
    | joining => cases place with
      | ended => exact h.join _ hw
      | _ => exact hw
  | others event => exact h.others event _ _ hw
  | thread choice =>
    change I (thread calls choice _).place (thread calls choice _).mem
    cases place with
    | absent | ended => exact hw
    | ahead call => cases active with
      | true => exact h.enter call _ hw
      | false => exact h.leave call _ hw
    | inside pc =>
      unfold thread
      dsimp only
      cases hstep : calls.step choice pc mem with
      | mk result mem' => cases result with
        | inl pc' => exact h.inside choice pc mem pc' mem' hw hstep
        | inr call => exact h.next choice pc mem call mem' hw hstep

theorem Keeps.run {I : Place Call Pc → Mem → Prop} (h : Keeps calls first I)
    (hw : I w.place w.mem) :
    I (run (Worker.step calls first) ops w).place (run (Worker.step calls first) ops w).mem := by
  induction ops generalizing w with
  | nil => exact hw
  | cons op ops ih => exact ih (h.step op hw)

/-- What holds of the memory over every run whose steps meet a condition. -/
theorem mem_run {P : Mem → Prop} {C : Op Choice Event → Worker Call Pc Mem → Prop}
    (hthread : ∀ choice w pc, C (.thread choice) w → w.place = .inside pc → P w.mem →
      P (calls.step choice pc w.mem).2)
    (hrelease : ∀ mem, P mem → P (calls.release mem).1)
    (hothers : ∀ event mem, P mem → P (calls.others event mem))
    (hops : Meets (Worker.step calls first) C ops w) (hw : P w.mem) :
    P (Foundation.run (Worker.step calls first) ops w).mem := by
  refine run_invariant (P := fun w : Worker Call Pc Mem => P w.mem) ?_ hops hw
  rintro op ⟨active, place, stopper, mem⟩ hop hmem
  cases op with
  | activate => cases active <;> cases place <;> cases stopper <;> exact hmem
  | others event => exact hothers event mem hmem
  | thread choice => cases place with
    | inside pc => exact hthread choice _ pc hop rfl hmem
    | _ => exact hmem
  | deactivate => cases stopper with
    | away => cases active <;> exact hmem
    | joining => cases place <;> exact hmem
    | releasing => exact hrelease mem hmem

/-! ### The join returns -/

/-- Once what a call waits for is released, each of its steps brings it nearer to its end. -/
structure Quits (calls : Calls Call Pc Mem Choice Event) (I : Place Call Pc → Mem → Prop)
    (R : Pc → Mem → Prop) (steps : Pc → ℕ) : Prop where
  release : ∀ pc mem, I (.inside pc) mem → (calls.release mem).2 = true → R pc (calls.release mem).1
  step : ∀ choice pc mem pc' mem', R pc mem → calls.step choice pc mem = (.inl pc', mem') →
    R pc' mem' ∧ steps pc' < steps pc

/-- What the others do, no call waits again for what was released. -/
def Unhindered (calls : Calls Call Pc Mem Choice Event) (R : Pc → Mem → Prop)
    (ops : List (Op Choice Event)) : Prop :=
  ∀ event, .others event ∈ ops → ∀ pc mem, R pc mem → R pc (calls.others event mem)

theorem Unhindered.tail {R : Pc → Mem → Prop} {op : Op Choice Event}
    (h : Unhindered calls R (op :: ops)) : Unhindered calls R ops :=
  fun event hevent => h event (List.mem_cons_of_mem _ hevent)

/-- The flag is cleared before what is waited for is released, and this before the join. -/
structure Stopping (R : Pc → Mem → Prop) (w : Worker Call Pc Mem) : Prop where
  active : w.active → w.stopper = .away ∧ w.place ≠ .absent
  place : w.stopper ≠ .away → w.place ≠ .absent
  released : w.stopper = .joining → ∀ pc, w.place = .inside pc → R pc w.mem

theorem Stopping.constructed {R : Pc → Mem → Prop} {m : Mem} :
    Stopping R ({ mem := m } : Worker Call Pc Mem) :=
  ⟨nofun, nofun, nofun⟩

variable {I : Place Call Pc → Mem → Prop} {R : Pc → Mem → Prop} {steps : Pc → ℕ}

theorem Stopping.thread (hquits : Quits calls I R steps) (h : Stopping R w) (choice : Choice) :
    Stopping R (w.thread calls choice) := by
  obtain ⟨active, place, stopper, mem⟩ := w
  cases place with
  | absent | ended => exact h
  | ahead call => cases active with
    | true =>
      refine ⟨fun _ => ⟨(h.active rfl).1, nofun⟩, fun _ => nofun, fun hjoining => ?_⟩
      exact absurd ((h.active rfl).1.symm.trans hjoining) nofun
    | false => exact ⟨nofun, fun _ => nofun, fun _ _ => nofun⟩
  | inside pc =>
    unfold Worker.thread
    dsimp only
    cases hstep : calls.step choice pc mem with
    | mk result mem' => cases result with
      | inl pc' =>
        refine ⟨fun hactive => ⟨(h.active hactive).1, nofun⟩, fun _ => nofun,
          fun hjoining pc'' hpc => ?_⟩
        obtain rfl := Place.inside.inj hpc
        exact (hquits.step choice pc mem pc' mem' (h.released hjoining pc rfl) hstep).1
      | inr call =>
        exact ⟨fun hactive => ⟨(h.active hactive).1, nofun⟩, fun _ => nofun, fun _ _ => nofun⟩

theorem Stopping.step (hquits : Quits calls I R steps) (hI : I w.place w.mem) (h : Stopping R w)
    (op : Op Choice Event) (hop : Unhindered calls R [op]) :
      Stopping R (w.step calls first op) := by
  cases op with
  | thread choice => exact h.thread hquits choice
  | others event =>
    exact ⟨h.active, h.place, fun hjoining pc hpc =>
      hop event List.mem_cons_self pc _ (h.released hjoining pc hpc)⟩
  | activate =>
    change Stopping R (activate first w)
    unfold activate
    split
    · exact ⟨fun _ => ⟨‹_›, nofun⟩, fun _ => nofun, fun _ _ => nofun⟩
    · exact h
  | deactivate =>
    obtain ⟨active, place, stopper, mem⟩ := w
    change Stopping R (deactivate calls _)
    cases stopper with
    | away => cases active with
      | true => exact ⟨nofun, fun _ => (h.active rfl).2, nofun⟩
      | false => exact h
    | releasing =>
      refine ⟨fun hactive => absurd (h.active hactive).1 nofun, fun _ => h.place nofun,
        fun hjoining pc hpc => ?_⟩
      obtain rfl : place = .inside pc := hpc
      have hlast : (calls.release mem).2 = true := by
        by_contra hmore
        have hstopper : (if (calls.release mem).2 = true then Stopper.joining else .releasing) =
          .joining := hjoining
        rw [if_neg hmore] at hstopper
        cases hstopper
      exact hquits.release pc mem hI hlast
    | joining => cases place with
      | ended => exact ⟨fun hactive => absurd (h.active hactive).1 nofun, nofun, nofun⟩
      | _ => exact h

theorem Stopping.run (hkeeps : Keeps calls first I) (hquits : Quits calls I R steps)
    (hI : I w.place w.mem) (h : Stopping R w) (hops : Unhindered calls R ops) :
    Stopping R (run (Worker.step calls first) ops w) := by
  induction ops generalizing w with
  | nil => exact h
  | cons op ops ih =>
    refine ih (hkeeps.step op hI) (h.step hquits hI op fun event hevent => ?_) hops.tail
    obtain rfl := List.mem_singleton.mp hevent
    exact hops event List.mem_cons_self

/-- The steps of its own that a worker is away from its end. -/
def Place.rank (steps : Pc → ℕ) : Place Call Pc → ℕ
  | .absent | .ended => 0
  | .ahead _ => 1
  | .inside pc => steps pc + 2

def Op.isThread : Op Choice Event → Bool
  | .thread _ => true
  | _ => false

def Op.isOthers : Op Choice Event → Bool
  | .others _ => true
  | _ => false

/-- However the others act, a worker that is joined ends after so many steps of its own. -/
theorem ended_of_joining (hquits : Quits calls I R steps) (h : Stopping R w)
    (hjoining : w.stopper = .joining) (hops : ∀ op ∈ ops, op.isThread ∨ op.isOthers)
    (hothers : Unhindered calls R ops) (hcount : w.place.rank steps ≤ ops.countP Op.isThread) :
    (run (Worker.step calls first) ops w).place = .ended ∧
      (run (Worker.step calls first) ops w).stopper = .joining := by
  induction ops generalizing w with
  | nil =>
    refine ⟨?_, hjoining⟩
    have hplace := h.place (by simp [hjoining])
    rw [List.countP_nil, Nat.le_zero] at hcount
    rw [run_nil]
    cases hw : w.place with
    | absent => exact absurd hw hplace
    | ended => rfl
    | ahead call => simp [hw, Place.rank] at hcount
    | inside pc => simp [hw, Place.rank] at hcount
  | cons op ops ih =>
    have hops' : ∀ op ∈ ops, op.isThread ∨ op.isOthers :=
      fun op hop => hops op (List.mem_cons_of_mem _ hop)
    have hinactive : w.active = false := by
      rw [← Bool.not_eq_true]
      intro hactive
      exact absurd ((h.active hactive).1.symm.trans hjoining) nofun
    rw [run_cons]
    cases op with
    | activate | deactivate =>
      exact absurd (hops _ List.mem_cons_self) (by simp [Op.isThread, Op.isOthers])
    | others event =>
      have hstep : Stopping R (w.step calls first (.others event)) :=
        ⟨h.active, h.place, fun hj pc hpc =>
          hothers event List.mem_cons_self pc _ (h.released hj pc hpc)⟩
      rw [List.countP_cons_of_neg (by simp [Op.isThread])] at hcount
      exact ih hstep hjoining hops' hothers.tail hcount
    | thread choice =>
      rw [List.countP_cons_of_pos (by simp [Op.isThread])] at hcount
      obtain ⟨active, place, stopper, mem⟩ := w
      have hstep := h.thread hquits choice
      refine ih hstep ?_ hops' hothers.tail ?_
      · cases place <;> exact hjoining
      · obtain rfl : active = false := hinactive
        cases place with
        | absent | ended => exact Nat.zero_le _
        | ahead call => exact Nat.zero_le _
        | inside pc =>
          simp only [Worker.step, Worker.thread]
          cases hs : calls.step choice pc mem with
          | mk result mem' => cases result with
            | inl pc' =>
              have hlt := (hquits.step choice pc mem pc' mem' (h.released hjoining pc rfl) hs).2
              simp only [Place.rank, Sum.elim_inl] at hcount ⊢
              omega
            | inr call =>
              simp only [Place.rank, Sum.elim_inr] at hcount ⊢
              omega

/-- The join returns when the worker has ended. -/
theorem deactivate_of_ended
    (h : (run (Worker.step calls first) ops w).place = .ended ∧
      (run (Worker.step calls first) ops w).stopper = .joining) :
    (run (Worker.step calls first) (ops ++ [.deactivate]) w).stopper = .away := by
  rw [run_append, run_cons, run_nil]
  simp only [Worker.step, deactivate, h.1, h.2]

end Worker

end Foundation
