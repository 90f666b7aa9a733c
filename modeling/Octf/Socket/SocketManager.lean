import Octf.Foundation.Worker

/-! The thread that keeps a socket working: it opens the socket again whenever it was lost, until it
is deactivated. An access to a shared pointer is one step. -/
namespace Octf.Socket
open Foundation Worker

inductive State where
  | Idle | Initializing | Working
  deriving DecidableEq

/-! ### The client -/

/-- The members of `SocketManagerStateMachineClient`, with what became of its connections and with
where `close` is. -/
structure Client where
  /-- `m_conn`, by the number of the connection -/
  conn : Option ℕ := none
  isOpen : ℕ → Bool := fun _ => false
  connected : ℕ := 0
  /-- the connections that the listener was told of -/
  reported : List ℕ := []
  /-- The thread has followed a pointer while it was null. -/
  crashed : Bool := false
  /-- `close` has found a connection and has yet to close it. -/
  closing : Bool := false
  /-- `close` has followed a pointer while it was null. -/
  closedNull : Bool := false

namespace Client

inductive Pc where
  | idle | closeOld | connect | report | work
  deriving DecidableEq

/-- `m_conn->close()` -/
def closeConn (m : Client) : Client :=
  { m with isOpen := fun n => m.isOpen n && m.conn ≠ some n }

/-- `SocketManagerStateMachineClient::close`: the test of `m_conn`, then the call. -/
def close (m : Client) : Client × Bool :=
  if m.closing then
    ({ m.closeConn with closing := false, closedNull := m.closedNull || m.conn.isNone }, true)
  else if m.conn.isSome then ({ m with closing := true }, false)
  else (m, true)

/-- Whether the server accepts. -/
abbrev Choice := Bool

def step (accepted : Choice) (pc : Pc) (m : Client) : (Pc ⊕ State) × Client :=
  match pc with
  | .idle => (.inr .Initializing, m)
  | .closeOld => (.inl .connect, { m.closeConn with conn := none })
  | .connect =>
    if accepted then (.inl .report,
      { m with
        conn := some m.connected
        isOpen := fun n => n = m.connected || m.isOpen n
        connected := m.connected + 1 })
    else (.inr .Idle, m)
  | .report => (.inr .Working, { m with reported := m.reported ++ m.conn.toList })
  | .work => match m.conn with
    | none => (.inl .work, { m with crashed := true })
    | some n => if m.isOpen n then (.inl .work, m) else (.inr .Idle, m)

/-- A connection is closed by the other side, or by who was told of it. -/
def others (n : ℕ) (m : Client) : Client := { m with isOpen := fun k => m.isOpen k && k ≠ n }

def calls : Calls State Pc Client Choice ℕ where
  enter
    | .Idle => .idle
    | .Initializing => .closeOld
    | .Working => .work
  step := step
  release := close
  others := others

/-- Where the connection is there and was reported. -/
def Holds : Place State Pc → Prop
  | .ahead .Working | .inside .work => True
  | _ => False

structure Inv (place : Place State Pc) (m : Client) : Prop where
  safe : m.crashed = false
  /-- no other connection is open -/
  single : ∀ n, m.isOpen n → m.conn = some n
  reported : m.reported ++ (if place = .inside .report then m.conn.toList else []) =
    List.range m.connected
  report : place = .inside .report → m.conn.isSome
  holds : Holds place → m.conn.isSome
  connect : place = .inside .connect → m.conn = none

theorem Inv.change {place : Place State Pc} {m m' : Client} (h : Inv place m)
    (hopen : ∀ n, m'.isOpen n → m.isOpen n) (hconn : m'.conn = m.conn)
    (hconnected : m'.connected = m.connected) (hreported : m'.reported = m.reported)
    (hcrashed : m'.crashed = m.crashed) : Inv place m' where
  safe := hcrashed.trans h.safe
  single := fun n hn => hconn ▸ h.single n (hopen n hn)
  reported := by rw [hreported, hconn, hconnected]; exact h.reported
  report := hconn ▸ h.report
  holds := hconn ▸ h.holds
  connect := hconn ▸ h.connect

theorem Inv.move {place place' : Place State Pc} {m : Client} (h : Inv place m)
    (hreport : place ≠ .inside .report) (hreport' : place' ≠ .inside .report)
    (hholds : Holds place' → Holds place) (hconnect : place' ≠ .inside .connect) :
      Inv place' m where
  safe := h.safe
  single := h.single
  reported := by
    rw [if_neg hreport']
    simpa [hreport] using h.reported
  report := fun hplace => absurd hplace hreport'
  holds := fun hplace => h.holds (hholds hplace)
  connect := fun hplace => absurd hplace hconnect

theorem keeps_inv : Keeps calls .Initializing Inv where
  start := fun _ h => h.move nofun nofun id nofun
  enter := fun call _ h => by cases call <;> exact h.move nofun nofun id nofun
  leave := fun _ _ h => h.move nofun nofun nofun nofun
  join := fun _ h => h.move nofun nofun nofun nofun
  release := fun _ m h => by
    unfold calls close
    dsimp only
    split_ifs
    · exact h.change (fun _ hn => (Bool.and_eq_true_iff.mp hn).1) rfl rfl rfl rfl
    · exact h.change (fun _ hn => hn) rfl rfl rfl rfl
    · exact h
  others := fun _ _ _ h => h.change (fun _ hn => (Bool.and_eq_true_iff.mp hn).1) rfl rfl rfl rfl
  inside := by
    intro accepted pc m pc' m' h hstep
    cases pc with
    | idle | report => cases hstep
    | closeOld =>
      cases hstep
      refine ⟨h.safe, fun n hn => ?_, ?_, nofun, nofun, fun _ => rfl⟩
      · obtain ⟨hn, hne⟩ : m.isOpen n = true ∧ ¬ m.conn = some n := by
          simpa [closeConn] using hn
        exact absurd (h.single n hn) hne
      · simpa [closeConn] using h.reported
    | connect =>
      cases accepted with
      | false => cases hstep
      | true =>
        cases hstep
        refine ⟨h.safe, fun n hn => ?_, ?_, fun _ => rfl, nofun, nofun⟩
        · rcases Bool.or_eq_true_iff.mp hn with hn | hn
          · simpa [eq_comm] using hn
          · cases (h.single n hn).symm.trans (h.connect rfl)
        · have hreported := h.reported
          simp only [reduceCtorEq, Place.inside.injEq, if_false, List.append_nil] at hreported
          simp [hreported, List.range_succ]
    | work =>
      obtain ⟨n, hn⟩ := Option.isSome_iff_exists.mp (h.holds trivial)
      simp only [calls, step, hn] at hstep
      split_ifs at hstep
      · cases hstep
        exact h
      · cases hstep
  next := by
    intro accepted pc m call m' h hstep
    cases pc with
    | closeOld => cases hstep
    | idle =>
      cases hstep
      exact h.move nofun nofun nofun nofun
    | connect => cases accepted with
      | true => cases hstep
      | false =>
        cases hstep
        exact h.move nofun nofun nofun nofun
    | report =>
      cases hstep
      exact ⟨h.safe, h.single, by simpa using h.reported, nofun, fun _ => h.report rfl, nofun⟩
    | work =>
      obtain ⟨n, hn⟩ := Option.isSome_iff_exists.mp (h.holds trivial)
      simp only [calls, step, hn] at hstep
      split_ifs at hstep
      · cases hstep
      · cases hstep
        exact h.move nofun nofun nofun nofun

/-- The connection that is worked on is closed. -/
def Released (pc : Pc) (m : Client) : Prop := pc = .work → ∃ n, m.conn = some n ∧ m.isOpen n = false

def steps : Pc → ℕ
  | .closeOld => 2
  | .connect => 1
  | .idle | .report | .work => 0

theorem quits : Quits calls Inv Released steps where
  release := by
    rintro pc m h hlast rfl
    obtain ⟨n, hn⟩ := Option.isSome_iff_exists.mp (h.holds trivial)
    unfold calls close at hlast ⊢
    cases hclosing : m.closing with
    | true => exact ⟨n, by simpa [hclosing, closeConn] using hn, by simp [hclosing, closeConn, hn]⟩
    | false => simp [hclosing, hn] at hlast
  step := by
    intro accepted pc m pc' m' h hstep
    cases pc with
    | idle | report => cases hstep
    | closeOld =>
      cases hstep
      exact ⟨nofun, by decide⟩
    | connect => cases accepted with
      | false => cases hstep
      | true =>
        cases hstep
        exact ⟨nofun, by decide⟩
    | work =>
      obtain ⟨n, hn, hclosed⟩ := h rfl
      simp [calls, step, hn, hclosed] at hstep

theorem unhindered (ops : List (Op Choice ℕ)) : Unhindered calls Released ops := by
  intro k _ pc m h hpc
  obtain ⟨n, hn, hclosed⟩ := h hpc
  exact ⟨n, hn, by simp [calls, others, hclosed]⟩

theorem inv_constructed : Inv .absent {} :=
  ⟨rfl, nofun, rfl, nofun, nofun, nofun⟩

theorem step_closing (choice : Choice) (pc : Pc) (m : Client) :
    (step choice pc m).2.closing = m.closing ∧ (step choice pc m).2.closedNull = m.closedNull := by
  unfold step
  cases pc with
  | work =>
    dsimp only
    split
    · exact ⟨rfl, rfl⟩
    · split_ifs <;> exact ⟨rfl, rfl⟩
  | connect => cases choice <;> exact ⟨rfl, rfl⟩
  | _ => exact ⟨rfl, rfl⟩

end Client

/-! ### The server -/

/-- The members of `SocketManagerStateMachineServer`, with the connections that it accepted. -/
structure Server where
  /-- `m_srv`, by whether its socket is open -/
  srv : Option Bool := none
  accepted : ℕ := 0
  reported : List ℕ := []
  crashed : Bool := false
  closing : Bool := false
  closedNull : Bool := false

namespace Server

inductive Pc where
  | idle | reset | create | openSocket | listen | report (n : ℕ) | check
  deriving DecidableEq

/-- `m_srv->close()` -/
def closeServer (m : Server) : Server := { m with srv := m.srv.map fun _ => false }

/-- `SocketManagerStateMachineServer::close`: the test of `m_srv`, then the call. -/
def close (m : Server) : Server × Bool :=
  if m.closing then
    ({ m.closeServer with closing := false, closedNull := m.closedNull || m.srv.isNone }, true)
  else if m.srv.isSome then ({ m with closing := true }, false)
  else (m, true)

/-- A call of the system succeeds, fails, or waits; `listen` fails apart from `accept`. -/
inductive Choice where
  | succeeds | fails | waits | refuses

def crash (pc : Pc) (m : Server) : (Pc ⊕ State) × Server := (.inl pc, { m with crashed := true })

def step (choice : Choice) (pc : Pc) (m : Server) : (Pc ⊕ State) × Server :=
  match pc with
  | .idle => (.inr .Initializing, m)
  | .reset => (.inl .create, { m with srv := none })
  | .create => match choice with
    | .succeeds => (.inl .openSocket, { m with srv := some false })
    | _ => (.inr .Idle, { m with srv := none })
  | .openSocket => match m.srv, choice with
    | none, _ => crash pc m
    | some _, .succeeds => (.inr .Working, { m with srv := some true })
    | some _, _ => (.inr .Idle, { m with srv := none })
  | .listen => match m.srv, choice with
    | none, _ => crash pc m
    | some false, _ => (.inl .check, m)
    | some true, .waits => (.inl .listen, m)
    | some true, .refuses => (.inl .check, m)
    | some true, .fails => (.inl .check, m.closeServer)
    | some true, .succeeds => (.inl (.report m.accepted), { m with accepted := m.accepted + 1 })
  | .report n => (.inl .check, { m with reported := m.reported ++ [n] })
  | .check => match m.srv with
    | none => crash pc m
    | some true => (.inr .Working, m)
    | some false => (.inr .Idle, { m with srv := none })

def calls : Calls State Pc Server Choice Empty where
  enter
    | .Idle => .idle
    | .Initializing => .reset
    | .Working => .listen
  step := step
  release := close
  others := fun event => nomatch event

def Holds : Place State Pc → Prop
  | .ahead .Working | .inside .openSocket | .inside .listen | .inside (.report _)
  | .inside .check => True
  | _ => False

/-- The connection that is about to be reported. -/
def pending : Place State Pc → List ℕ
  | .inside (.report n) => [n]
  | _ => []

structure Inv (place : Place State Pc) (m : Server) : Prop where
  safe : m.crashed = false
  holds : Holds place → m.srv.isSome
  reported : m.reported ++ pending place = List.range m.accepted

theorem Inv.move {place place' : Place State Pc} {m : Server} (h : Inv place m)
    (hholds : Holds place' → Holds place) (hpending : pending place' = pending place) :
    Inv place' m :=
  ⟨h.safe, fun hplace => h.holds (hholds hplace), hpending ▸ h.reported⟩

theorem Inv.step {choice : Choice} {pc : Pc} {m m' : Server} {result : Pc ⊕ State}
    (h : Inv (.inside pc) m) (hstep : step choice pc m = (result, m')) :
    Inv (result.elim .inside .ahead) m' := by
  cases pc with
  | idle =>
    cases hstep
    exact h.move nofun rfl
  | reset =>
    cases hstep
    exact ⟨h.safe, nofun, h.reported⟩
  | create => cases choice with
    | succeeds =>
      cases hstep
      exact ⟨h.safe, fun _ => rfl, h.reported⟩
    | _ =>
      cases hstep
      exact ⟨h.safe, nofun, h.reported⟩
  | openSocket =>
    obtain ⟨b, hb⟩ := Option.isSome_iff_exists.mp (h.holds trivial)
    cases choice with
    | succeeds =>
      simp only [Server.step, hb] at hstep
      cases hstep
      exact ⟨h.safe, fun _ => rfl, h.reported⟩
    | _ =>
      simp only [Server.step, hb] at hstep
      cases hstep
      exact ⟨h.safe, nofun, h.reported⟩
  | listen =>
    obtain ⟨b, hb⟩ := Option.isSome_iff_exists.mp (h.holds trivial)
    cases b with
    | false =>
      simp only [Server.step, hb] at hstep
      cases hstep
      exact h.move id rfl
    | true => cases choice with
      | succeeds =>
        simp only [Server.step, hb] at hstep
        cases hstep
        have hreported := h.reported
        simp only [pending, List.append_nil] at hreported
        exact ⟨h.safe, fun _ => rfl, by simp [pending, hreported, List.range_succ]⟩
      | fails =>
        simp only [Server.step, hb] at hstep
        cases hstep
        exact ⟨h.safe, fun _ => by simp [closeServer, hb], h.reported⟩
      | _ =>
        simp only [Server.step, hb] at hstep
        cases hstep
        exact h.move id rfl
  | report n =>
    cases hstep
    exact ⟨h.safe, fun _ => h.holds trivial, by simpa [pending] using h.reported⟩
  | check =>
    obtain ⟨b, hb⟩ := Option.isSome_iff_exists.mp (h.holds trivial)
    cases b with
    | true =>
      simp only [Server.step, hb] at hstep
      cases hstep
      exact h.move (fun _ => trivial) rfl
    | false =>
      simp only [Server.step, hb] at hstep
      cases hstep
      exact ⟨h.safe, nofun, h.reported⟩

theorem keeps_inv : Keeps calls .Initializing Inv where
  start := fun _ h => h.move id rfl
  enter := fun call _ h => by cases call <;> exact h.move id rfl
  leave := fun _ _ h => h.move nofun rfl
  join := fun _ h => h.move id rfl
  release := fun _ m h => by
    unfold calls close
    dsimp only
    split_ifs
    · exact ⟨h.safe, fun hplace => by simpa [closeServer] using h.holds hplace, h.reported⟩
    · exact ⟨h.safe, h.holds, h.reported⟩
    · exact h
  others := fun event => nomatch event
  inside := fun _ _ _ _ _ h hstep => h.step hstep
  next := fun _ _ _ _ _ h hstep => h.step hstep

/-- The server that is worked on is closed. -/
def Released (pc : Pc) (m : Server) : Prop :=
  (pc = .openSocket → m.srv.isSome) ∧
    (pc = .listen ∨ (∃ n, pc = .report n) ∨ pc = .check → m.srv = some false)

def steps : Pc → ℕ
  | .listen | .reset => 2
  | .create | .report _ => 1
  | .idle | .openSocket | .check => 0

theorem quits : Quits calls Inv Released steps where
  release := by
    intro pc m h hlast
    unfold calls close at hlast ⊢
    cases hclosing : m.closing with
    | true =>
      refine ⟨?_, ?_⟩
      · rintro rfl
        simpa [hclosing, closeServer] using h.holds trivial
      · rintro (rfl | ⟨n, rfl⟩ | rfl) <;>
          · obtain ⟨b, hb⟩ := Option.isSome_iff_exists.mp (h.holds trivial)
            simp [hclosing, closeServer, hb]
    | false =>
      -- it has found no server, so the thread is not working on one
      have hnone : m.srv.isSome = false := by
        rw [← Bool.not_eq_true]
        intro hsome
        simp [hclosing, hsome] at hlast
      refine ⟨?_, ?_⟩
      · rintro rfl
        exact absurd (h.holds trivial) (by simp [hnone])
      · rintro (rfl | ⟨n, rfl⟩ | rfl) <;> exact absurd (h.holds trivial) (by simp [hnone])
  step := by
    intro choice pc m pc' m' h hstep
    cases pc with
    | idle => cases hstep
    | reset =>
      cases hstep
      exact ⟨⟨nofun, by simp⟩, by decide⟩
    | create => cases choice with
      | succeeds =>
        cases hstep
        exact ⟨⟨fun _ => rfl, by simp⟩, by decide⟩
      | _ => cases hstep
    | openSocket =>
      obtain ⟨b, hb⟩ := Option.isSome_iff_exists.mp (h.1 rfl)
      cases choice <;> simp [calls, Server.step, hb] at hstep
    | listen =>
      have hclosed := h.2 (.inl rfl)
      simp only [calls, Server.step, hclosed] at hstep
      cases hstep
      exact ⟨⟨nofun, fun _ => hclosed⟩, by decide⟩
    | report n =>
      have hclosed := h.2 (.inr (.inl ⟨n, rfl⟩))
      cases hstep
      exact ⟨⟨nofun, fun _ => hclosed⟩, Nat.zero_lt_one⟩
    | check =>
      have hclosed := h.2 (.inr (.inr rfl))
      simp [calls, Server.step, hclosed] at hstep

theorem unhindered (ops : List (Op Choice Empty)) : Unhindered calls Released ops :=
  fun event => event.elim

theorem inv_constructed : Inv .absent {} :=
  ⟨rfl, nofun, rfl⟩

theorem step_closing (choice : Choice) (pc : Pc) (m : Server) :
    (step choice pc m).2.closing = m.closing ∧ (step choice pc m).2.closedNull = m.closedNull := by
  unfold step
  cases pc with
  | create => cases choice <;> exact ⟨rfl, rfl⟩
  | openSocket | listen | check =>
    dsimp only
    split <;> exact ⟨rfl, rfl⟩
  | _ => exact ⟨rfl, rfl⟩

end Server

/-! ### Runs of the manager -/

/-- No use fails in a run whose steps leave what is about to be used where it is, if only the
release begins a use, and only of what is there. -/
theorem held_run {Pc Mem Choice Event : Type*} {calls : Calls State Pc Mem Choice Event}
    (held used failed : Mem → Bool)
    (hstep : ∀ choice pc m, used (calls.step choice pc m).2 = used m ∧
      failed (calls.step choice pc m).2 = failed m)
    (hrelease : ∀ m, (used m → held m) ∧ failed m = false →
      (used (calls.release m).1 → held (calls.release m).1) ∧
        failed (calls.release m).1 = false)
    (hothers : ∀ event m, (used m → held m) ∧ failed m = false →
      (used (calls.others event m) → held (calls.others event m)) ∧
        failed (calls.others event m) = false)
    {ops : List (Op Choice Event)} {w : Worker State Pc Mem}
    (hops : Meets (Worker.step calls .Initializing) (fun op w => used w.mem → held w.mem →
      held (w.step calls .Initializing op).mem) ops w)
    (hw : (used w.mem → held w.mem) ∧ failed w.mem = false) :
    failed (run (Worker.step calls .Initializing) ops w).mem = false := by
  refine (mem_run (P := fun m => (used m → held m) ∧ failed m = false)
    (fun choice w pc hleaves hpc h => ?_) hrelease hothers hops hw).2
  obtain ⟨hused, hfailed⟩ := hstep choice pc w.mem
  refine ⟨fun hnext => ?_, hfailed.trans h.2⟩
  have huse : used w.mem = true := hused.symm.trans hnext
  have hafter := hleaves huse (h.1 huse)
  simpa only [Worker.step, Worker.thread, hpc] using hafter

/-- The step does not take the connection away from a `close` that has found it. -/
def Client.Leaves (op : Op Choice ℕ) (w : Worker State Pc Client) : Prop :=
  w.mem.closing → w.mem.conn.isSome → (w.step calls .Initializing op).mem.conn.isSome

theorem Client.closedNull_run {ops : List (Op Choice ℕ)}
    (hleaves : Meets (Worker.step calls .Initializing) Leaves ops { mem := {} }) :
    (run (Worker.step calls .Initializing) ops { mem := {} }).mem.closedNull = false := by
  refine held_run (fun m : Client => m.conn.isSome) closing closedNull step_closing (fun m h => ?_)
    (fun n m h => h) hleaves ⟨nofun, rfl⟩
  change ((close m).1.closing = true → (close m).1.conn.isSome = true) ∧
    (close m).1.closedNull = false
  unfold close
  split_ifs with hclosing hsome
  · exact ⟨by simp, by simpa [h.1 hclosing] using h.2⟩
  · exact ⟨fun _ => hsome, h.2⟩
  · exact h

/-- In every run of a client with what the server, the listeners and the one who deactivates it do
in between, its thread follows no null pointer, one connection at most is open, the one at hand, and
the listener was told of each connection once and in their order, but for one that is about to be
reported. `close` follows a null pointer only if the thread has reset the one that it had found. -/
theorem client_run (ops : List (Op Client.Choice ℕ)) :
    let w : Worker State Client.Pc Client :=
      run (Worker.step Client.calls .Initializing) ops { mem := {} }
    w.mem.crashed = false ∧ (∀ n, w.mem.isOpen n → w.mem.conn = some n) ∧
      w.mem.reported ++ (if w.place = .inside .report then w.mem.conn.toList else []) =
        List.range w.mem.connected ∧
      (Meets (Worker.step Client.calls .Initializing) Client.Leaves ops { mem := {} } →
        w.mem.closedNull = false) := by
  intro w
  have hinv : Client.Inv w.place w.mem :=
    Client.keeps_inv.run Client.inv_constructed
  exact ⟨hinv.safe, hinv.single, hinv.reported, Client.closedNull_run⟩

/-- A client that has lost its connection opens its socket anew while it is being deactivated. -/
theorem client_closedNull : (run (Worker.step Client.calls .Initializing)
    [.activate, .thread true, .thread true, .thread true, .thread true, .others 0, .thread true,
      .thread true, .thread true, .thread true, .thread true, .deactivate, .deactivate,
      .thread true, .deactivate] { mem := {} }).mem.closedNull = true := by
  decide

/-- The step does not take the server away from a `close` that has found it. -/
def Server.Leaves (op : Op Choice Empty) (w : Worker State Pc Server) : Prop :=
  w.mem.closing → w.mem.srv.isSome → (w.step calls .Initializing op).mem.srv.isSome

theorem Server.closedNull_run {ops : List (Op Choice Empty)}
    (hleaves : Meets (Worker.step calls .Initializing) Leaves ops { mem := {} }) :
    (run (Worker.step calls .Initializing) ops { mem := {} }).mem.closedNull = false := by
  refine held_run (fun m : Server => m.srv.isSome) closing closedNull step_closing (fun m h => ?_)
    (fun event => event.elim) hleaves ⟨nofun, rfl⟩
  change ((close m).1.closing = true → (close m).1.srv.isSome = true) ∧
    (close m).1.closedNull = false
  unfold close
  split_ifs with hclosing hsome
  · exact ⟨by simp, by simpa [h.1 hclosing] using h.2⟩
  · exact ⟨fun _ => hsome, h.2⟩
  · exact h

/-- The thread of the server follows no null pointer either, and its listener is told of every
connection that was accepted; `close` follows one only if the thread has reset the server that it
had found. -/
theorem server_run (ops : List (Op Server.Choice Empty)) :
    let w : Worker State Server.Pc Server :=
      run (Worker.step Server.calls .Initializing) ops { mem := {} }
    w.mem.crashed = false ∧
      w.mem.reported ++ Server.pending w.place = List.range w.mem.accepted ∧
      (Meets (Worker.step Server.calls .Initializing) Server.Leaves ops { mem := {} } →
        w.mem.closedNull = false) := by
  intro w
  have hinv : Server.Inv w.place w.mem := Server.keeps_inv.run Server.inv_constructed
  exact ⟨hinv.safe, hinv.reported, Server.closedNull_run⟩

/-- A server whose socket cannot be opened is reset while it is being deactivated. -/
theorem server_closedNull : (run (Worker.step Server.calls .Initializing)
    [.activate, .thread .succeeds, .thread .succeeds, .thread .succeeds, .deactivate, .deactivate,
      .thread .fails, .deactivate] { mem := {} }).mem.closedNull = true := by
  decide

/-- Deactivation returns from its join once the thread of the manager made four more steps, whenever
the socket was closed, a connection made or a call of the system begun. -/
theorem deactivate_returns :
    (∀ ops ops' : List (Op Client.Choice ℕ), (∀ op ∈ ops', op.isThread ∨ op.isOthers) →
      4 ≤ ops'.countP Op.isThread →
      let w : Worker State Client.Pc Client :=
        run (Worker.step Client.calls .Initializing) ops { mem := {} }
      w.stopper = .joining →
        (run (Worker.step Client.calls .Initializing) (ops' ++ [.deactivate]) w).stopper = .away) ∧
    ∀ ops ops' : List (Op Server.Choice Empty), (∀ op ∈ ops', op.isThread ∨ op.isOthers) →
      4 ≤ ops'.countP Op.isThread →
      let w : Worker State Server.Pc Server :=
        run (Worker.step Server.calls .Initializing) ops { mem := {} }
      w.stopper = .joining →
        (run (Worker.step Server.calls .Initializing) (ops' ++ [.deactivate]) w).stopper =
          .away := by
  constructor
  · intro ops ops' hops' hcount w hjoining
    have hstopping : Stopping Client.Released w :=
      Stopping.run Client.keeps_inv Client.quits Client.inv_constructed Stopping.constructed
        (Client.unhindered ops)
    have hrank : w.place.rank Client.steps ≤ 4 := by
      cases w.place with
      | inside pc => cases pc <;> simp [Place.rank, Client.steps]
      | _ => simp [Place.rank]
    exact deactivate_of_ended (ended_of_joining Client.quits hstopping hjoining hops'
      (Client.unhindered ops') (hrank.trans hcount))
  · intro ops ops' hops' hcount w hjoining
    have hstopping : Stopping Server.Released w :=
      Stopping.run Server.keeps_inv Server.quits Server.inv_constructed Stopping.constructed
        (Server.unhindered ops)
    have hrank : w.place.rank Server.steps ≤ 4 := by
      cases w.place with
      | inside pc => cases pc <;> simp [Place.rank, Server.steps]
      | _ => simp [Place.rank]
    exact deactivate_of_ended (ended_of_joining Server.quits hstopping hjoining hops'
      (Server.unhindered ops') (hrank.trans hcount))

/-- The client is deactivated while it connects. -/
theorem deactivate_returns_connecting :
    let w : Worker State Client.Pc Client := run (Worker.step Client.calls .Initializing)
      [.activate, .thread true, .thread true, .deactivate, .deactivate] { mem := {} }
    (run (Worker.step Client.calls .Initializing)
      ([.thread true, .thread true, .others 0, .thread true, .thread true] ++ [.deactivate])
        w).stopper = .away :=
  deactivate_returns.1 _ _ (by decide) (by decide) rfl

end Octf.Socket
