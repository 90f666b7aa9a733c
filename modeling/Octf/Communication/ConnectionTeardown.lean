import Octf.Communication.ConnectionContext
import Octf.Foundation.Run

/-! A context is destroyed in safety when its last reference is dropped by another thread than its
receive thread, after that thread has left. -/
namespace Octf.Communication
open Foundation

/-- The context whose receive thread a step of `onConnection` is to start. -/
def SocketPc.starts : SocketPc → Option ℕ
  | .created n | .pushing n | .activating n | .proxying n | .starting n => some n
  | _ => none

namespace Connections

/-- No thread waits for a receive thread with a lock that this thread may need, no receive thread
takes a reference when there is none left, and none destroys its own context. -/
structure Safe (s : Connections) : Prop where
  joins : ∀ t n, s.destroying t = some (n, .joining) →
    (s.txLock n = some t → (s.rx n).needsTx = false) ∧
      (s.lock = some t → (s.rx n).needsLock = false)
  takes : ∀ n, s.rx n ≠ .threw
  destroys : ∀ n pc, s.destroying (.rx n) ≠ some (n, pc)

/-- The last reference to a context is only dropped by another thread than the receive thread, when
that one has left. -/
def DropsLate (role : Role) (op : Thread × Choice) (s : Connections) : Prop :=
  s.destroying op.1 = none → ∀ n, (s.act role op).2 = some n → (s.act role op).1.refs n = 1 →
    op.1 ≠ .rx n ∧ ((s.act role op).1.rx n).left = true

instance (role : Role) (op : Thread × Choice) (s : Connections) :
    Decidable (DropsLate role op s) :=
  inferInstanceAs (Decidable (_ → ∀ n ∈ (s.act role op).2, _ → _ ∧ _))

/-- A thread that has not left has a context to work with. -/
structure Sound (s : Connections) : Prop where
  destroyed : ∀ t n pc, s.destroying t = some (n, pc) → t ≠ .rx n ∧ (s.rx n).left = true
  referenced : ∀ n < s.created, s.refs n = 0 → (s.rx n).left = true
  taken : ∀ n, s.rx n ≠ .threw
  known : ∀ n, s.rx n ≠ .notStarted → n < s.created
  starting : ∀ n, SocketPc.starts s.socket = some n → n < s.created ∧ s.rx n = .notStarted

variable {role : Role} {s : Connections}

theorem sound_init : Sound init where
  destroyed := by simp [init]
  referenced := by simp [init]
  taken := by simp [init]
  known := by simp [init]
  starting := by simp [init, SocketPc.starts]

theorem left_needsTx {pc : ReceivePc} (h : pc.left = true) : pc.needsTx = false := by
  unfold ReceivePc.left at h
  split at h <;> first | rfl | exact absurd h (by simp)

theorem left_needsLock {pc : ReceivePc} (h : pc.left = true) : pc.needsLock = false := by
  unfold ReceivePc.left at h
  split at h <;> first | rfl | exact absurd h (by simp)

namespace Sound

theorem safe (h : Sound s) : Safe s where
  joins := by
    intro t n hjoin
    have hleft := (h.destroyed t n _ hjoin).2
    exact ⟨fun _ => left_needsTx hleft, fun _ => left_needsLock hleft⟩
  takes := h.taken
  destroys := fun n pc hdestroy => (h.destroyed _ n pc hdestroy).1 rfl

/-- What the invariant does not speak of may change, and references may be added. -/
theorem congr {s' : Connections} (h : Sound s) (hcreated : s'.created = s.created)
    (hrefs : ∀ n, s'.refs n = 0 → s.refs n = 0) (hrx : s'.rx = s.rx)
    (hdestroying : s'.destroying = s.destroying)
    (hsocket : ∀ n, SocketPc.starts s'.socket = some n → SocketPc.starts s.socket = some n) :
    Sound s' where
  destroyed := by rw [hdestroying, hrx]; exact h.destroyed
  referenced := by
    rw [hcreated, hrx]
    exact fun n hn hzero => h.referenced n hn (hrefs n hzero)
  taken := by rw [hrx]; exact h.taken
  known := by rw [hcreated, hrx]; exact h.known
  starting := by
    rw [hcreated, hrx]
    exact fun n hn => h.starting n (hsocket n hn)

theorem of_eq {s' : Connections} (h : Sound s) (hcreated : s'.created = s.created)
    (hrefs : s'.refs = s.refs) (hrx : s'.rx = s.rx) (hdestroying : s'.destroying = s.destroying)
    (hsocket : s'.socket = s.socket) : Sound s' :=
  h.congr hcreated (fun _ hzero => hrefs ▸ hzero) hrx hdestroying fun _ hn => hsocket ▸ hn

/-- A started thread goes on, as long as it has a reference to rely on or has left. -/
theorem setRx (h : Sound s) {n : ℕ} {pc : ReceivePc} (hstarted : s.rx n ≠ .notStarted)
    (hleft : (s.rx n).left = true → pc.left = true) (hthrew : pc ≠ .threw) :
    Sound (s.setRx n pc) where
  destroyed := by
    intro t m dpc hdestroy
    obtain ⟨hne, hm⟩ := h.destroyed t m dpc hdestroy
    refine ⟨hne, ?_⟩
    by_cases heq : m = n
    · subst heq
      simpa [Connections.setRx] using hleft hm
    · simpa [Connections.setRx, Function.update_of_ne heq] using hm
  referenced := by
    intro m hm hzero
    have hold := h.referenced m hm hzero
    by_cases heq : m = n
    · subst heq
      simpa [Connections.setRx] using hleft hold
    · simpa [Connections.setRx, Function.update_of_ne heq] using hold
  taken := by
    intro m
    by_cases heq : m = n
    · subst heq
      simpa [Connections.setRx] using hthrew
    · simpa [Connections.setRx, Function.update_of_ne heq] using h.taken m
  known := by
    intro m hm
    by_cases heq : m = n
    · exact heq ▸ h.known n hstarted
    · exact h.known m (by simpa [Connections.setRx, Function.update_of_ne heq] using hm)
  starting := by
    intro m hm
    obtain ⟨hlt, hnot⟩ := h.starting m hm
    have hne : m ≠ n := fun heq => hstarted (heq ▸ hnot)
    exact ⟨hlt, by simpa [Connections.setRx, Function.update_of_ne hne] using hnot⟩

/-- A dropped reference that may be the last one. -/
theorem dropRef (h : Sound s) {t : Thread} {n : ℕ}
    (hlast : s.refs n = 1 → t ≠ .rx n ∧ (s.rx n).left = true) : Sound (s.dropRef t n) where
  destroyed := by
    intro t' m pc hdestroy
    by_cases hone : s.refs n = 1
    · simp only [Connections.dropRef, hone, if_true] at hdestroy
      by_cases heq : t' = t
      · subst heq
        rw [Function.update_self] at hdestroy
        obtain ⟨rfl, -⟩ := Prod.mk.inj (Option.some.inj hdestroy)
        exact hlast hone
      · rw [Function.update_of_ne heq] at hdestroy
        exact h.destroyed t' m pc hdestroy
    · simp only [Connections.dropRef, hone, if_false] at hdestroy
      exact h.destroyed t' m pc hdestroy
  referenced := by
    intro m hm hzero
    by_cases heq : m = n
    · subst heq
      simp only [Connections.dropRef, Function.update_self] at hzero
      by_cases hone : s.refs m = 1
      · exact (hlast hone).2
      · exact h.referenced m hm (by omega)
    · simp only [Connections.dropRef, Function.update_of_ne heq] at hzero
      exact h.referenced m hm hzero
  taken := h.taken
  known := h.known
  starting := h.starting

theorem addRef (h : Sound s) (n : ℕ) : Sound (s.addRef n) := by
  refine h.congr rfl (fun m hzero => ?_) rfl rfl fun _ hn => hn
  by_cases heq : m = n
  · subst heq
    simp [Connections.addRef] at hzero
  · simpa [Connections.addRef, Function.update_of_ne heq] using hzero

/-- A new context, which `onConnection` is going to start. -/
theorem create (h : Sound s) {s' : Connections} (hcreated : s'.created = s.create.created)
    (hrefs : s'.refs = s.create.refs) (hrx : s'.rx = s.rx)
    (hdestroying : s'.destroying = s.destroying)
    (hsocket : SocketPc.starts s'.socket = some s.created) : Sound s' where
  destroyed := by rw [hdestroying, hrx]; exact h.destroyed
  referenced := by
    rw [hcreated, hrefs, hrx]
    intro n hn hzero
    by_cases heq : n = s.created
    · subst heq
      simp [Connections.create] at hzero
    · simp only [Connections.create, Function.update_of_ne heq] at hn hzero
      exact h.referenced n (by omega) hzero
  taken := by rw [hrx]; exact h.taken
  known := by
    rw [hcreated, hrx]
    exact fun n hn => Nat.lt_succ_of_lt (h.known n hn)
  starting := by
    rw [hcreated, hrx, hsocket]
    rintro n ⟨⟩
    refine ⟨Nat.lt_succ_self _, ?_⟩
    by_contra hne
    exact absurd (h.known _ hne) (Nat.lt_irrefl _)

/-- A started thread that has not left has a reference to take another one from. -/
theorem refs_ne_zero (h : Sound s) {n : ℕ} (hstarted : s.rx n ≠ .notStarted)
    (hleft : (s.rx n).left = false) : s.refs n ≠ 0 := by
  intro hzero
  rw [h.referenced n (h.known n hstarted) hzero] at hleft
  exact absurd hleft (by simp)

theorem rxAct (h : Sound s) (n : ℕ) (choice : Choice) : Sound (s.rxAct role n choice).1 := by
  -- a thread that has not left goes on, when only other parts of the state have changed
  have hgo : ∀ {old : ReceivePc} (s' : Connections) (pc : ReceivePc), s.rx n = old →
      old ≠ .notStarted → old.left = false → Sound s' → s'.rx = s.rx → pc ≠ .threw →
      Sound (s'.setRx n pc) := by
    intro old s' pc hold hstarted hleft hs' hrx hthrew
    refine hs'.setRx (by rwa [hrx, hold]) (fun hleft' => ?_) hthrew
    rw [hrx, hold, hleft] at hleft'
    exact absurd hleft' (by simp)
  have hrefs : ∀ {old : ReceivePc}, s.rx n = old → old ≠ .notStarted → old.left = false →
      s.refs n ≠ 0 := fun hold hstarted hleft => h.refs_ne_zero (hold ▸ hstarted) (hold ▸ hleft)
  unfold Connections.rxAct
  split <;> rename_i hpc
  · split
    · split
      · exact h.of_eq rfl rfl rfl rfl rfl
      · exact hgo s _ hpc (by simp) rfl h rfl (by simp)
    · exact hgo s _ hpc (by simp) rfl h rfl (by simp)
  · split
    · exact hgo s _ hpc (by simp) rfl h rfl (by simp)
    · rw [if_neg (hrefs hpc (by simp) rfl)]
      exact hgo _ _ hpc (by simp) rfl (h.addRef n) rfl (by simp)
    · exact hgo s _ hpc (by simp) rfl h rfl (by simp)
  · split <;> exact hgo s _ hpc (by simp) rfl h rfl (by simp)
  · split
    · exact hgo _ _ hpc (by simp) rfl (h.of_eq rfl rfl rfl rfl rfl) rfl (by simp)
    · exact h
  · refine hgo _ _ hpc (by simp) rfl (h.of_eq ?_ ?_ ?_ ?_ ?_) ?_ (by simp) <;> split <;> rfl
  · split
    · exact hgo _ _ hpc (by simp) rfl (h.of_eq rfl rfl rfl rfl rfl) rfl (by simp)
    · exact h
  · refine hgo _ _ hpc (by simp) rfl (h.of_eq rfl rfl rfl rfl rfl) rfl ?_
    split <;> simp
  · exact hgo s _ hpc (by simp) rfl h rfl (by simp)
  · rw [if_neg (hrefs hpc (by simp) rfl)]
    exact hgo _ _ hpc (by simp) rfl (h.addRef n) rfl (by simp)
  · split
    · exact hgo _ _ hpc (by simp) rfl (h.of_eq rfl rfl rfl rfl rfl) rfl (by simp)
    · exact h
  · split
    · split
      · split
        · exact h
        · exact hgo _ _ hpc (by simp) rfl (h.of_eq rfl rfl rfl rfl rfl) rfl (by simp)
      · exact hgo _ _ hpc (by simp) rfl (h.of_eq rfl rfl rfl rfl rfl) rfl (by simp)
    · split
      · exact hgo _ _ hpc (by simp) rfl (h.of_eq rfl rfl rfl rfl rfl) rfl (by simp)
      · exact hgo s _ hpc (by simp) rfl h rfl (by simp)
  · exact hgo s _ hpc (by simp) rfl h rfl (by simp)
  · exact h.setRx (by simp [hpc]) (fun _ => rfl) (by simp)
  all_goals exact h

/-- `activate` -/
theorem start (h : Sound s) {n : ℕ} (hn : SocketPc.starts s.socket = some n) {pc : SocketPc}
    (hpc : SocketPc.starts pc = none) : Sound { s.setRx n .loop with socket := pc } := by
  obtain ⟨hlt, hnot⟩ := h.starting n hn
  have hleft : (s.rx n).left = false := by rw [hnot]; rfl
  refine ⟨fun t m dpc hdestroy => ?_, fun m hm hzero => ?_, fun m => ?_, fun m hm => ?_, ?_⟩
  · obtain ⟨hne, hm⟩ := h.destroyed t m dpc hdestroy
    have hother : m ≠ n := by
      rintro rfl
      rw [hleft] at hm
      exact absurd hm (by simp)
    exact ⟨hne, by simpa [Connections.setRx, Function.update_of_ne hother] using hm⟩
  · have hm' := h.referenced m hm hzero
    have hother : m ≠ n := by
      rintro rfl
      rw [hleft] at hm'
      exact absurd hm' (by simp)
    simpa [Connections.setRx, Function.update_of_ne hother] using hm'
  · by_cases heq : m = n
    · subst heq
      simp [Connections.setRx]
    · simpa [Connections.setRx, Function.update_of_ne heq] using h.taken m
  · by_cases heq : m = n
    · exact heq ▸ hlt
    · exact h.known m (by simpa [Connections.setRx, Function.update_of_ne heq] using hm)
  · intro m hm
    rw [hpc] at hm
    exact absurd hm (by simp)

theorem socketAct (h : Sound s) : Sound (s.socketAct role).1 := by
  have hother : ∀ s' : Connections, s'.created = s.created → s'.refs = s.refs → s'.rx = s.rx →
      s'.destroying = s.destroying → SocketPc.starts s'.socket = none → Sound s' := by
    intro s' hcreated hrefs hrx hdestroying hsocket
    exact h.congr hcreated (fun m hzero => hrefs ▸ hzero) hrx hdestroying
      (fun m hm => by rw [hsocket] at hm; exact absurd hm (by simp))
  unfold Connections.socketAct
  split <;> rename_i hpc
  · split
    · exact h.create rfl rfl rfl rfl rfl
    · split
      · exact hother _ rfl rfl rfl rfl rfl
      · exact h
  · split
    · exact h.congr rfl (fun _ hzero => hzero) rfl rfl (fun m hm => hpc ▸ hm)
    · exact h
  · exact (h.addRef _).congr rfl (fun _ hzero => hzero) rfl rfl
      (fun m hm => (congrArg SocketPc.starts hpc).trans hm)
  · exact h.start (congrArg SocketPc.starts hpc) rfl
  · exact hother _ rfl rfl rfl rfl rfl
  · exact h.create rfl rfl rfl rfl rfl
  · exact (h.addRef _).congr rfl (fun _ hzero => hzero) rfl rfl
      (fun m hm => (congrArg SocketPc.starts hpc).trans hm)
  · exact h.start (congrArg SocketPc.starts hpc) rfl
  · exact hother _ rfl rfl rfl rfl rfl
  · exact h

theorem ownerAct (h : Sound s) (choice : Choice) : Sound (s.ownerAct role choice).1 := by
  unfold Connections.ownerAct
  split
  · split
    · exact h.congr rfl (fun _ hzero => hzero) rfl rfl (fun m hm => by cases hm)
    · exact h
  · split
    · exact h.of_eq rfl rfl rfl rfl rfl
    · exact h
  · split
    · split <;> exact h.of_eq rfl rfl rfl rfl rfl
    · exact h.of_eq rfl rfl rfl rfl rfl
  all_goals exact h.of_eq rfl rfl rfl rfl rfl

theorem deleterAct (h : Sound s) : Sound s.deleterAct.1 := by
  unfold Connections.deleterAct
  split
  · exact h.of_eq rfl rfl rfl rfl rfl
  · split <;> exact h.of_eq rfl rfl rfl rfl rfl

theorem callerAct (h : Sound s) (k : ℕ) (choice : Choice) : Sound (s.callerAct k choice).1 := by
  unfold Connections.callerAct
  dsimp only
  split
  · split
    · split
      · exact h
      · exact (h.addRef _).of_eq rfl rfl rfl rfl rfl
    · split
      · exact h
      · exact (h.addRef _).of_eq rfl rfl rfl rfl rfl
  · split <;> exact h.of_eq rfl rfl rfl rfl rfl
  · split
    · exact h.of_eq rfl rfl rfl rfl rfl
    · exact h
  · split <;> exact h.of_eq rfl rfl rfl rfl rfl

theorem act (h : Sound s) (op : Thread × Choice) : Sound (s.act role op).1 := by
  unfold Connections.act
  split
  · exact h.rxAct _ _
  · exact h.socketAct
  · exact h.ownerAct _
  · exact h.deleterAct
  · exact h.callerAct _ _

/-- A destructor goes on or ends. -/
theorem goOn (h : Sound s) {s' : Connections} {t : Thread} {n : ℕ} {pc : DestroyPc}
    {next : Option (ℕ × DestroyPc)} (hpc : s.destroying t = some (n, pc))
    (hnext : ∀ m dpc, next = some (m, dpc) → m = n) (hcreated : s'.created = s.created)
    (hrefs : s'.refs = s.refs) (hrx : s'.rx = s.rx)
    (hdestroying : s'.destroying = Function.update s.destroying t next)
    (hsocket : s'.socket = s.socket) : Sound s' where
  destroyed := by
    rw [hdestroying, hrx]
    intro t' m dpc hdestroy
    by_cases heq : t' = t
    · subst heq
      rw [Function.update_self] at hdestroy
      obtain rfl := hnext m dpc hdestroy
      exact h.destroyed t' m pc hpc
    · rw [Function.update_of_ne heq] at hdestroy
      exact h.destroyed t' m dpc hdestroy
  referenced := by rw [hcreated, hrefs, hrx]; exact h.referenced
  taken := by rw [hrx]; exact h.taken
  known := by rw [hcreated, hrx]; exact h.known
  starting := by rw [hcreated, hrx, hsocket]; exact h.starting

theorem destroyAct (h : Sound s) {t : Thread} {n : ℕ} {pc : DestroyPc}
    (hpc : s.destroying t = some (n, pc)) : Sound (s.destroyAct t n pc) := by
  unfold Connections.destroyAct
  dsimp only
  split
  · split
    · refine h.goOn hpc ?_ rfl rfl rfl rfl rfl
      intro m dpc hnext
      split at hnext <;> cases hnext <;> rfl
    · exact h
  · split
    · refine h.goOn hpc ?_ rfl rfl rfl rfl rfl
      rintro m dpc ⟨⟩
      rfl
    · exact h
  · refine h.goOn hpc ?_ rfl rfl rfl rfl rfl
    rintro m dpc ⟨⟩

theorem step (h : Sound s) {op : Thread × Choice} (hlate : DropsLate role op s) :
    Sound (s.step role op) := by
  unfold Connections.step
  split
  · rename_i n pc hpc
    exact h.destroyAct hpc
  · rename_i hnone
    have hact : Sound (s.act role op).1 := h.act op
    have hdrop := hlate hnone
    split
    · rename_i s' hs'
      rw [hs'] at hact
      exact hact
    · rename_i s' n hs'
      rw [hs'] at hact hdrop
      exact hact.dropRef (hdrop n rfl)

end Sound

/-- A run in which every last reference is dropped by another thread, after the receive thread has
left, is safe all along. -/
theorem safe_of_dropsLate (role : Role) (ops : List (Thread × Choice))
    (h : Meets (step role) (DropsLate role) ops init) : Safe (run (step role) ops init) := by
  have hsound : Sound (run (step role) ops init) :=
    run_invariant (fun op s hlate hs => hs.step hlate) h sound_init
  exact hsound.safe

/-- A connection that its peer closes: the receive thread hands the context to the deleter and
ends, and the deleter destroys it. -/
theorem safe_closedByPeer :
    let ops : List (Thread × Choice) :=
      List.replicate 5 (.socket, .ok) ++ (.rx 0, .error) :: List.replicate 5 (.rx 0, .ok) ++
        List.replicate 6 (.deleter, .ok) ++ List.replicate 3 (.owner, .ok)
    (run (step .server) ops init).owner = .finished ∧ (run (step .server) ops init).refs 0 = 0 ∧
      Safe (run (step .server) ops init) :=
  ⟨by decide +kernel, by decide +kernel, safe_of_dropsLate .server _ (by decide +kernel)⟩

/-- The server shuts down with a connection: its owner joins the receive thread under the transmit
lock, the receive thread takes a reference that is not there any more, and a receive thread that
executes a method destroys its own context. The client that connects again joins the receive thread
of the old connection under its lock. -/
theorem shutdown_not_safe :
    let connect := List.replicate 5 (Thread.socket, Choice.ok)
    let shutdown := List.replicate 4 (Thread.owner, Choice.ok)
    let joins := run (step .server) (connect ++ shutdown ++ [(.owner, .ok)]) init
    let takes := run (step .server) [(.rx 0, .ok), (.rx 0, .ok)] joins
    let destroys := run (step .server)
      (connect ++ [(.rx 0, .ok), (.rx 0, .request)] ++ shutdown ++ [(.rx 0, .ok), (.rx 0, .ok)])
      init
    let reconnects := run (step .client) (connect ++ List.replicate 4 (.socket, .ok)) init
    (¬ Safe joins ∧ joins.destroying .owner = some (0, .joining) ∧ joins.rx 0 = .loop) ∧
      (¬ Safe takes ∧ takes.rx 0 = .threw) ∧
      (¬ Safe destroys ∧ destroys.destroying (.rx 0) = some (0, .begun)) ∧
      ¬ Safe reconnects ∧ reconnects.lock = some .socket ∧
        reconnects.destroying .socket = some (0, .joining) ∧ reconnects.rx 0 = .loop := by
  intro connect shutdown joins takes destroys reconnects
  have hjoins : joins.destroying .owner = some (0, .joining) := by decide +kernel
  have htx : joins.txLock 0 = some .owner := by decide +kernel
  have hloop : joins.rx 0 = .loop := by decide +kernel
  have htakes : takes.rx 0 = .threw := by decide +kernel
  have hdestroys : destroys.destroying (.rx 0) = some (0, .begun) := by decide +kernel
  have hlock : reconnects.lock = some .socket := by decide +kernel
  have hagain : reconnects.destroying .socket = some (0, .joining) := by decide +kernel
  have hold : reconnects.rx 0 = .loop := by decide +kernel
  refine ⟨⟨fun h => ?_, hjoins, hloop⟩, ⟨fun h => h.takes 0 htakes, htakes⟩,
    ⟨fun h => h.destroys 0 _ hdestroys, hdestroys⟩, fun h => ?_, hlock, hagain, hold⟩
  · have hneeds := (h.joins .owner 0 hjoins).1 htx
    rw [hloop] at hneeds
    exact absurd hneeds (by decide)
  · have hneeds := (h.joins .socket 0 hagain).2 hlock
    rw [hold] at hneeds
    exact absurd hneeds (by decide)

end Connections

end Octf.Communication
