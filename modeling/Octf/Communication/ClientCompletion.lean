import Mathlib.Data.List.Perm.Subperm
import Octf.Communication.ClientContext

/-! Every method handed to a context is in one place: held by its call, pending, or finished
by one run of its closure. -/
namespace Octf.Communication
open Foundation

/-- The method a call still holds. -/
def SendPc.method? : SendPc → Option MethodClient
  | .getNextSid method | .lockSids method _ | .checkSid method _ | .preparePacket method
  | .register method _ => some method
  | _ => none

/-- The sequence id a call has drawn. -/
def SendPc.sid? : SendPc → Option ℕ
  | .lockSids _ newSid | .checkSid _ newSid => some newSid
  | .preparePacket method | .register method _ => some method.sid
  | .serialize packet | .sendDataPacket packet => some packet.sid
  | .failClientMethod sid _ => some sid
  | _ => none

/-- What the environment is asked for: the nodes of the methods live. -/
def ClientAction.KeepsNodes (nodes : Nodes) : ClientAction → Prop
  | .sendMethod method => (nodes method.node).isSome
  | .expire _ => False
  | _ => True

instance (nodes : Nodes) : DecidablePred (ClientAction.KeepsNodes nodes)
  | .sendMethod method => inferInstanceAs (Decidable ((nodes method.node).isSome = true))
  | .expire _ => .isFalse id
  | .advance _ _ | .response _ | .onDisconnection | .cancelClientMethod _ | .deactivate
  | .destroy => .isTrue trivial

def ClientAction.isSendMethod : ClientAction → Bool
  | .sendMethod _ => true
  | _ => false

namespace ClientContext

variable {nodes : Nodes} {s : ClientContext} {call : ℕ} {method : MethodClient}

def held (s : ClientContext) (x : ℕ) : ℕ := if (s.calls x).method?.isSome then 1 else 0

def waiting (s : ClientContext) (x : ℕ) : ℕ :=
  s.clntPendingMethods.entries.countP fun e => e.2.closure = x

def ran (s : ClientContext) (x : ℕ) : ℕ := s.closureRuns.countP fun r => r.closure = x

/-- Where the methods are, with the nodes of all of them alive. -/
structure Accounted (nodes : Nodes) (s : ClientContext) : Prop where
  nodes_eq : s.nodes = nodes
  fresh : ∀ x, s.started ≤ x → s.calls x = .idle
  holds : ∀ x method, (s.calls x).method? = some method →
    method.closure = x ∧ (nodes method.node).isSome
  pending : ∀ e ∈ s.clntPendingMethods.entries, e.2.sid = e.1 ∧ (nodes e.2.node).isSome
  once : ∀ x, s.held x + s.waiting x + s.ran x = if x < s.started then 1 else 0
  emptied : s.destroyed → s.Unused ∧ s.clntPendingMethods.entries = []

theorem Accounted.init (nodes : Nodes) : (ClientContext.init nodes).Accounted nodes where
  nodes_eq := rfl
  fresh _ _ := rfl
  holds x m h := by cases h
  pending e he := by cases he
  once x := rfl
  emptied h := by cases h

theorem method?_goTo {pc : SendPc} {x : ℕ} {m : MethodClient}
    (h : ((s.goTo call pc).calls x).method? = some m) :
    (x = call ∧ pc.method? = some m) ∨ (s.calls x).method? = some m := by
  simp only [goTo, Function.update_apply] at h
  split_ifs at h with hx
  · exact Or.inl ⟨hx, h⟩
  · exact Or.inr h

@[simp] theorem calls_goTo (pc : SendPc) (x : ℕ) :
    (s.goTo call pc).calls x = if x = call then pc else s.calls x :=
  Function.update_apply s.calls call pc x

/-- A section under the lock is entered or not. -/
theorem locked_of {P : ClientContext → Prop} {body : ClientContext → ClientContext} (h : P s)
    (hbody : P (body s)) : P (s.locked body) := by
  unfold locked
  split_ifs
  · exact hbody
  · exact h

namespace Accounted

/-- A call that is not over was begun. -/
theorem started_of (h : s.Accounted nodes) (hcall : s.calls call ≠ .idle) :
    call < s.started := by
  by_contra hge
  exact hcall (h.fresh call (not_lt.mp hge))

theorem not_idle (hm : (s.calls call).method? = some method) : s.calls call ≠ .idle := by
  intro hidle
  rw [hidle] at hm
  cases hm

/-- A call takes a step, with the context not yet destroyed: what it and the map hold, and
what has run, stays the same in all. -/
theorem of_moved {t : ClientContext} (h : s.Accounted nodes) (hlive : t.destroyed = false)
    (hnodes : t.nodes = s.nodes) (hstarted : t.started = s.started)
    (hcall : s.calls call ≠ .idle) (hothers : ∀ x, x ≠ call → t.calls x = s.calls x)
    (hholds : ∀ m, (t.calls call).method? = some m →
      m.closure = call ∧ (nodes m.node).isSome)
    (hpending : ∀ e ∈ t.clntPendingMethods.entries,
      e.2.sid = e.1 ∧ (nodes e.2.node).isSome)
    (hsum : ∀ x, t.held x + t.waiting x + t.ran x = s.held x + s.waiting x + s.ran x) :
    t.Accounted nodes where
  nodes_eq := hnodes.trans h.nodes_eq
  fresh x hx := by
    rw [hstarted] at hx
    have hne : x ≠ call := fun heq => absurd (h.started_of hcall) (not_lt.mpr (heq ▸ hx))
    rw [hothers x hne]
    exact h.fresh x hx
  holds x m hm := by
    by_cases hx : x = call
    · rw [hx] at hm ⊢
      exact hholds m hm
    · rw [hothers x hx] at hm
      exact h.holds x m hm
  pending := hpending
  once x := by rw [hsum x, hstarted, h.once x]
  emptied hd := by
    rw [hlive] at hd
    cases hd

variable {pc : SendPc} {sidRef : ℕ} {clntLock : Option ℕ}
  {sent : List (ℕ × PacketMethodRequest)}

/-- A call goes on with the method it holds, or with none. The counter, the lock and what was
sent play no part. -/
theorem goTo (h : s.Accounted nodes) (hlive : s.destroyed = false)
    (hcall : s.calls call ≠ .idle)
    (hsome : pc.method?.isSome = (s.calls call).method?.isSome)
    (hholds : ∀ m, pc.method? = some m → m.closure = call ∧ (nodes m.node).isSome) :
    (({ s with sidRef := sidRef, clntLock := clntLock, sent := sent } :
      ClientContext).goTo call pc).Accounted nodes := by
  refine h.of_moved hlive rfl rfl hcall (fun x hx => ?_) (fun m hm => ?_) h.pending fun x => ?_
  · rw [calls_goTo, if_neg hx]
  · rw [calls_goTo, if_pos rfl] at hm
    exact hholds m hm
  · change _ + s.waiting x + s.ran x = _
    simp only [held, calls_goTo]
    split_ifs with hx <;> simp_all

/-- A call runs the closure of the method it holds. -/
theorem finish (h : s.Accounted nodes) (hlive : s.destroyed = false)
    (hm : (s.calls call).method? = some method) (outcome : Outcome) :
    ((s.finish [⟨method.closure, outcome⟩]).goTo call .returned).Accounted nodes := by
  refine h.of_moved hlive rfl rfl (not_idle hm) (fun x hx => ?_) (fun m hm' => ?_) h.pending
    fun x => ?_
  · rw [calls_goTo, if_neg hx]
    rfl
  · rw [calls_goTo, if_pos rfl] at hm'
    cases hm'
  · obtain ⟨hclosure, -⟩ := h.holds call method hm
    change _ + s.waiting x + _ = _
    simp only [held, ran, ClientContext.goTo, ClientContext.finish, List.countP_append,
      List.countP_singleton, decide_eq_true_eq, hclosure]
    by_cases hx : x = call
    · rw [hx, if_pos rfl, hm]
      simp [SendPc.method?]
      omega
    · simp [hx, Ne.symm hx]

/-- A call hands its method to the map. -/
theorem emplace (h : s.Accounted nodes) (hlive : s.destroyed = false)
    {packet : PacketMethodRequest} (hcall : s.calls call = .register method packet)
    (hfree : s.clntPendingMethods.find method.sid = none) :
    (({ s with clntPendingMethods := s.clntPendingMethods.emplace method.sid method } :
      ClientContext).goTo call (.serialize packet)).Accounted nodes := by
  have hm : (s.calls call).method? = some method := by rw [hcall]; rfl
  obtain ⟨hclosure, hnode⟩ := h.holds call method hm
  have hperm := OrderedMap.perm_emplace (v := method) hfree
  refine h.of_moved hlive rfl rfl (not_idle hm) (fun x hx => ?_) (fun m hm' => ?_)
    (fun e he => ?_) fun x => ?_
  · rw [calls_goTo, if_neg hx]
  · rw [calls_goTo, if_pos rfl] at hm'
    cases hm'
  · rcases List.mem_cons.mp (hperm.subset he) with rfl | he
    · exact ⟨rfl, hnode⟩
    · exact h.pending e he
  · change _ + List.countP _ (s.clntPendingMethods.emplace method.sid method).entries +
      s.ran x = _
    simp only [held, waiting, hperm.countP_eq, List.countP_cons, decide_eq_true_eq, hclosure,
      calls_goTo]
    by_cases hx : x = call
    · rw [hx, if_pos rfl, hm]
      simp [SendPc.method?]
      omega
    · simp [hx, Ne.symm hx]

/-- Methods leave the map, each with one run of its closure. -/
theorem settle (h : s.Accounted nodes) (taken : List (ℕ × MethodClient))
    (rest : OrderedMap MethodClient)
    (hperm : s.clntPendingMethods.entries.Perm (taken ++ rest.entries)) {runs : List ClosureRun}
    (hruns : runs.map ClosureRun.closure = taken.map fun e => e.2.closure) :
    ({ s.finish runs with clntPendingMethods := rest } : ClientContext).Accounted nodes where
  nodes_eq := h.nodes_eq
  fresh := h.fresh
  holds := h.holds
  pending e he := h.pending e (hperm.symm.subset (List.mem_append_right taken he))
  once x := by
    have honce := h.once x
    have hcount : (runs.countP fun r => r.closure = x) =
        taken.countP fun e => e.2.closure = x := by
      have hmap := congrArg (List.countP fun c => decide (c = x)) hruns
      simpa only [List.countP_map, Function.comp_def] using hmap
    simp only [waiting, ran, hperm.countP_eq, List.countP_append] at honce
    change s.held x + List.countP _ rest.entries +
      List.countP _ (s.closureRuns ++ runs) = if x < s.started then 1 else 0
    rw [List.countP_append, hcount]
    omega
  emptied hd := by
    obtain ⟨hunused, hnone⟩ := h.emptied hd
    rw [hnone, List.nil_perm, List.append_eq_nil_iff] at hperm
    exact ⟨hunused, hperm.2⟩

/-- One method leaves the map. -/
theorem settle_erase (h : s.Accounted nodes) {sid : ℕ}
    (hfound : s.clntPendingMethods.find sid = some method) (outcome : Outcome) :
    ({ s.finish [⟨method.closure, outcome⟩] with
      clntPendingMethods := s.clntPendingMethods.erase sid } : ClientContext).Accounted nodes :=
  h.settle [(sid, method)] _ (OrderedMap.perm_erase hfound) rfl

theorem node_of_found (h : s.Accounted nodes) {sid : ℕ}
    (hfound : s.clntPendingMethods.find sid = some method) : (s.nodes method.node).isSome := by
  rw [h.nodes_eq]
  exact (h.pending _ (OrderedMap.find_eq_some_iff.mp hfound)).2

theorem completeClientMethod (h : s.Accounted nodes) (resp : PacketMethodResponse) :
    (s.completeClientMethod resp).Accounted nodes := by
  unfold ClientContext.completeClientMethod
  split
  · exact h
  · next method hfound =>
    obtain ⟨outcome, hrun⟩ := MethodClient.respond_eq (h.node_of_found hfound) resp
    rw [hrun]
    exact h.settle_erase hfound outcome

theorem failClientMethod (h : s.Accounted nodes) (sid : ℕ) (reason : String) :
    (s.failClientMethod sid reason).Accounted nodes := by
  unfold ClientContext.failClientMethod
  split
  · exact h
  · next method hfound =>
    rw [MethodClient.fail_eq (h.node_of_found hfound)]
    exact h.settle_erase hfound _

theorem failClientMethod_frame (sid : ℕ) (reason : String) :
    (s.failClientMethod sid reason).calls = s.calls ∧
      (s.failClientMethod sid reason).destroyed = s.destroyed := by
  unfold ClientContext.failClientMethod
  split <;> exact ⟨rfl, rfl⟩

theorem cancelAllClientMethods (h : s.Accounted nodes) (reason : String) :
    (s.cancelAllClientMethods reason).Accounted nodes := by
  refine h.settle s.clntPendingMethods.entries OrderedMap.empty ?_ ?_
  · rw [OrderedMap.empty, List.append_nil]
  · have hfail : ∀ e ∈ s.clntPendingMethods.entries,
        e.2.fail reason s.nodes = [⟨e.2.closure, .failed reason⟩] := fun e he =>
      MethodClient.fail_eq (h.nodes_eq ▸ (h.pending e he).2) reason
    rw [List.flatMap_congr hfail, ← List.map_eq_flatMap, List.map_map]
    rfl

theorem cancelClientMethod (h : s.Accounted nodes) (controller : ℕ) :
    (s.cancelClientMethod controller).Accounted nodes := by
  unfold ClientContext.cancelClientMethod
  split
  · exact h
  · next sid method hfound =>
    have hmem := List.mem_of_find?_eq_some hfound
    rw [MethodClient.fail_eq (h.nodes_eq ▸ (h.pending _ hmem).2)]
    exact h.settle [(sid, method)] _ (OrderedMap.perm_removeFirst hfound) rfl

/-- A call goes on with a method that has the closure and the node of the one it held. -/
theorem goOn (h : s.Accounted nodes) (hlive : s.destroyed = false) {m : MethodClient}
    (hm : (s.calls call).method? = some method) (hpc : pc.method? = some m)
    (hclosure : m.closure = method.closure) (hnode : m.node = method.node) :
    (({ s with sidRef := sidRef, clntLock := clntLock, sent := sent } :
      ClientContext).goTo call pc).Accounted nodes := by
  refine h.goTo hlive (not_idle hm) (by rw [hpc, hm]; rfl) fun m' hm' => ?_
  obtain rfl : m = m' := Option.some.inj (hpc.symm.trans hm')
  rw [hclosure, hnode]
  exact h.holds call method hm

/-- A call goes on without a method. -/
theorem goOn_none (h : s.Accounted nodes) (hlive : s.destroyed = false)
    (hcall : s.calls call ≠ .idle) (hm : (s.calls call).method? = none)
    (hpc : pc.method? = none) :
    (({ s with sidRef := sidRef, clntLock := clntLock, sent := sent } :
      ClientContext).goTo call pc).Accounted nodes := by
  refine h.goTo hlive hcall (by rw [hpc, hm]) fun m hm' => ?_
  rw [hpc] at hm'
  cases hm'

theorem register (h : s.Accounted nodes) (hlive : s.destroyed = false)
    {packet : PacketMethodRequest} (hcall : s.calls call = .register method packet) :
    (s.register call method packet).Accounted nodes := by
  have hm : (s.calls call).method? = some method := by rw [hcall]; rfl
  have hnode : (s.nodes method.node).isSome := h.nodes_eq ▸ (h.holds call method hm).2
  unfold ClientContext.register
  split_ifs with hfull hused
  · rw [MethodClient.fail_eq hnode]
    exact h.finish hlive hm _
  · rw [MethodClient.fail_eq hnode]
    exact h.finish hlive hm _
  · exact h.emplace hlive hcall (not_not.mp hused)

/-- The next step of a call. -/
theorem advance (h : s.Accounted nodes) (hlive : s.destroyed = false) (call : ℕ) (ok : Bool) :
    (s.advance call ok).Accounted nodes := by
  unfold ClientContext.advance
  split
  · exact h
  · exact h
  · next method hcall => exact h.goOn hlive (by rw [hcall]; rfl) rfl rfl rfl
  · next method newSid hcall =>
    exact locked_of h (h.goOn hlive (by rw [hcall]; rfl) rfl rfl rfl)
  · next method newSid hcall =>
    have hm : (s.calls call).method? = some method := by rw [hcall]; rfl
    split_ifs
    · exact h.goOn hlive hm rfl rfl rfl
    · exact h.goOn hlive hm rfl rfl rfl
  · next method hcall =>
    have hm : (s.calls call).method? = some method := by rw [hcall]; rfl
    split
    · rw [MethodClient.fail_eq (h.nodes_eq ▸ (h.holds call method hm).2)]
      exact h.finish hlive hm _
    · exact h.goOn hlive hm rfl rfl rfl
  · next method packet hcall => exact locked_of h (h.register hlive hcall)
  · next packet hcall =>
    have hidle : s.calls call ≠ .idle := by rw [hcall]; exact SendPc.noConfusion
    split_ifs
    · exact h.goOn_none hlive hidle (by rw [hcall]; rfl) rfl
    · exact h.goOn_none hlive hidle (by rw [hcall]; rfl) rfl
  · next packet hcall =>
    have hidle : s.calls call ≠ .idle := by rw [hcall]; exact SendPc.noConfusion
    split_ifs
    · exact h.goOn_none hlive hidle (by rw [hcall]; rfl) rfl
    · exact h.goOn_none hlive hidle (by rw [hcall]; rfl) rfl
  · next sid reason hcall =>
    obtain ⟨hcalls, hsame⟩ := failClientMethod_frame (s := s) sid reason
    refine locked_of h ((h.failClientMethod sid reason).goOn_none (hsame.trans hlive) ?_ ?_ rfl)
    · rw [hcalls, hcall]
      exact SendPc.noConfusion
    · rw [hcalls, hcall]
      rfl

/-- A new call holds its method. -/
theorem sendMethod (h : s.Accounted nodes) (hlive : s.destroyed = false)
    (hnode : (nodes method.node).isSome) : (s.sendMethod method).Accounted nodes where
  nodes_eq := h.nodes_eq
  fresh x hx := by
    change s.started + 1 ≤ x at hx
    have hne : x ≠ s.started := by omega
    simp only [ClientContext.sendMethod, calls_goTo, if_neg hne]
    exact h.fresh x (by omega)
  holds x m hm := by
    rcases method?_goTo hm with ⟨hx, hpc⟩ | hm
    · cases hpc
      exact ⟨hx.symm, hnode⟩
    · exact h.holds x m hm
  pending := h.pending
  once x := by
    have honce := h.once x
    change _ + s.waiting x + s.ran x = if x < s.started + 1 then 1 else 0
    simp only [held, ClientContext.sendMethod, calls_goTo]
    by_cases hx : x = s.started
    · rw [hx, if_neg (lt_irrefl _)] at honce
      rw [hx, if_pos rfl, if_pos (Nat.lt_succ_self _)]
      simp only [SendPc.method?, Option.isSome_some, if_true]
      omega
    · rw [if_neg hx]
      simp only [held] at honce
      rw [honce]
      split_ifs <;> omega
  emptied hd := by
    rw [show (s.sendMethod method).destroyed = s.destroyed from rfl, hlive] at hd
    cases hd

end Accounted

/-- A step of the context, while the nodes of the methods live. -/
theorem Accounted.step (h : s.Accounted nodes) {action : ClientAction}
    (haction : action.KeepsNodes nodes) : (s.step action).Accounted nodes := by
  by_cases hdestroyed : s.destroyed
  · rwa [ClientContext.step, if_pos hdestroyed]
  · have hlive : s.destroyed = false := by simpa using hdestroyed
    rw [ClientContext.step, if_neg hdestroyed]
    cases action with
    | sendMethod method => exact h.sendMethod hlive haction
    | advance call ok => exact h.advance hlive call ok
    | response resp => exact locked_of h (h.completeClientMethod resp)
    | onDisconnection => exact locked_of h (h.cancelAllClientMethods _)
    | cancelClientMethod controller => exact locked_of h (h.cancelClientMethod controller)
    | deactivate => exact locked_of h (h.cancelAllClientMethods _)
    | destroy =>
      refine locked_of h ?_
      have hcancel := h.cancelAllClientMethods "ERROR, Destruction"
      split_ifs with hunused
      · exact ⟨hcancel.nodes_eq, hcancel.fresh, hcancel.holds, hcancel.pending, hcancel.once,
          fun _ => ⟨hunused, rfl⟩⟩
      · exact h
    | expire node => exact absurd haction id

/-! ### Sequence ids -/

/-- The calls in the order they drew their sequence ids: a sequence id is a place in that
order, and leads to one call. -/
structure Numbered (draws : List ℕ) (s : ClientContext) : Prop where
  nodup : draws.Nodup
  sidRef_eq : s.sidRef = draws.length
  drawn : ∀ x ∈ draws, x < s.started ∧ ∀ method, s.calls x ≠ .getNextSid method
  calls : ∀ x sid, (s.calls x).sid? = some sid → draws[sid]? = some x
  packet : ∀ x method packet, s.calls x = .register method packet → packet.sid = method.sid
  pending : ∀ e ∈ s.clntPendingMethods.entries, draws[e.1]? = some e.2.closure
  sent : ∀ x ∈ s.sent, draws[x.2.sid]? = some x.1

namespace Numbered

variable {draws : List ℕ} {pc : SendPc} {clntLock : Option ℕ}

theorem init (nodes : Nodes) : (ClientContext.init nodes).Numbered [] where
  nodup := List.nodup_nil
  sidRef_eq := rfl
  drawn x hx := by cases hx
  calls x sid h := by cases h
  packet x method packet h := by cases h
  pending e he := by cases he
  sent x hx := by cases hx

/-- A call goes on with the sequence id it has drawn. -/
theorem goTo (h : s.Numbered draws) (hsid : ∀ sid, pc.sid? = some sid → draws[sid]? = some call)
    (hdrawn : ∀ method, pc ≠ .getNextSid method)
    (hpacket : ∀ method packet, pc = .register method packet → packet.sid = method.sid) :
    (({ s with clntLock := clntLock } : ClientContext).goTo call pc).Numbered draws where
  nodup := h.nodup
  sidRef_eq := h.sidRef_eq
  drawn x hx := by
    refine ⟨(h.drawn x hx).1, fun method => ?_⟩
    rw [calls_goTo]
    split_ifs
    · exact hdrawn method
    · exact (h.drawn x hx).2 method
  calls x sid hx := by
    rw [calls_goTo] at hx
    split_ifs at hx with heq
    · rw [heq]
      exact hsid sid hx
    · exact h.calls x sid hx
  packet x method packet hx := by
    rw [calls_goTo] at hx
    split_ifs at hx
    · exact hpacket method packet hx
    · exact h.packet x method packet hx
  pending := h.pending
  sent := h.sent

/-- Methods leave the map. -/
theorem settle (h : s.Numbered draws) {rest : OrderedMap MethodClient}
    (hsub : ∀ e ∈ rest.entries, e ∈ s.clntPendingMethods.entries) (runs : List ClosureRun) :
    ({ s.finish runs with clntPendingMethods := rest } : ClientContext).Numbered draws :=
  ⟨h.nodup, h.sidRef_eq, h.drawn, h.calls, h.packet, fun e he => h.pending e (hsub e he), h.sent⟩

theorem finish (h : s.Numbered draws) (runs : List ClosureRun) :
    (s.finish runs).Numbered draws :=
  ⟨h.nodup, h.sidRef_eq, h.drawn, h.calls, h.packet, h.pending, h.sent⟩

theorem completeClientMethod (h : s.Numbered draws) (resp : PacketMethodResponse) :
    (s.completeClientMethod resp).Numbered draws := by
  unfold ClientContext.completeClientMethod
  split
  · exact h
  · exact h.settle (fun e he => OrderedMap.mem_of_mem_removeFirst he) _

theorem failClientMethod (h : s.Numbered draws) (sid : ℕ) (reason : String) :
    (s.failClientMethod sid reason).Numbered draws := by
  unfold ClientContext.failClientMethod
  split
  · exact h
  · exact h.settle (fun e he => OrderedMap.mem_of_mem_removeFirst he) _

theorem cancelAllClientMethods (h : s.Numbered draws) (reason : String) :
    (s.cancelAllClientMethods reason).Numbered draws :=
  h.settle (fun e he => by cases he) _

theorem cancelClientMethod (h : s.Numbered draws) (controller : ℕ) :
    (s.cancelClientMethod controller).Numbered draws := by
  unfold ClientContext.cancelClientMethod
  split
  · exact h
  · exact h.settle (fun e he => OrderedMap.mem_of_mem_removeFirst he) _

theorem sendMethod (h : s.Numbered draws) (method : MethodClient) :
    (s.sendMethod method).Numbered draws where
  nodup := h.nodup
  sidRef_eq := h.sidRef_eq
  drawn x hx := by
    have hlt := (h.drawn x hx).1
    refine ⟨hlt.trans (Nat.lt_succ_self _), fun m => ?_⟩
    simp only [ClientContext.sendMethod, calls_goTo, if_neg hlt.ne]
    exact (h.drawn x hx).2 m
  calls x sid hx := by
    simp only [ClientContext.sendMethod, calls_goTo] at hx
    split_ifs at hx
    · cases hx
    · exact h.calls x sid hx
  packet x m packet hx := by
    simp only [ClientContext.sendMethod, calls_goTo] at hx
    split_ifs at hx
    exact h.packet x m packet hx
  pending := h.pending
  sent := h.sent

/-- A call draws its sequence id: the counter does not wrap while the calls fit in it. -/
theorem draw (h : s.Numbered draws) (haccounted : s.Accounted nodes)
    (hbound : s.started < 2 ^ 32) (hcall : s.calls call = .getNextSid method) :
    (({ s with sidRef := (s.sidRef + 1) % 2 ^ 32 } : ClientContext).goTo call
      (.lockSids method s.sidRef)).Numbered (draws ++ [call]) := by
  have hnew : call ∉ draws := fun hmem => (h.drawn call hmem).2 method hcall
  have hstarted : call < s.started :=
    haccounted.started_of (by rw [hcall]; exact SendPc.noConfusion)
  have hnodup : (call :: draws).Nodup := List.nodup_cons.mpr ⟨hnew, h.nodup⟩
  have hlength : (call :: draws).length ≤ s.started := by
    have hsub : call :: draws ⊆ List.range s.started := fun x hx => by
      rcases List.mem_cons.mp hx with rfl | hx
      · exact List.mem_range.mpr hstarted
      · exact List.mem_range.mpr (h.drawn x hx).1
    simpa using (hnodup.subperm hsub).length_le
  rw [List.length_cons] at hlength
  have hold : ∀ {sid x : ℕ}, draws[sid]? = some x → (draws ++ [call])[sid]? = some x :=
    fun {sid x} hx => by
      obtain ⟨hlt, -⟩ := List.getElem?_eq_some_iff.mp hx
      rw [List.getElem?_append_left hlt, hx]
  refine ⟨?_, ?_, fun x hx => ?_, fun x sid hx => ?_, fun x m packet hx => ?_, fun e he => ?_,
    fun x hx => ?_⟩
  · rw [List.nodup_append_comm]
    exact hnodup
  · change (s.sidRef + 1) % 2 ^ 32 = _
    rw [h.sidRef_eq, List.length_append, List.length_singleton, Nat.mod_eq_of_lt (by omega)]
  · rw [calls_goTo]
    rcases List.mem_append.mp hx with hx | hx
    · refine ⟨(h.drawn x hx).1, fun m => ?_⟩
      split_ifs
      · exact SendPc.noConfusion
      · exact (h.drawn x hx).2 m
    · rw [List.mem_singleton.mp hx, if_pos rfl]
      exact ⟨hstarted, fun m => SendPc.noConfusion⟩
  · rw [calls_goTo] at hx
    split_ifs at hx with heq
    · obtain rfl : s.sidRef = sid := Option.some.inj hx
      rw [h.sidRef_eq, List.getElem?_append_right le_rfl, Nat.sub_self, heq]
      rfl
    · exact hold (h.calls x sid hx)
  · rw [calls_goTo] at hx
    split_ifs at hx
    exact h.packet x m packet hx
  · exact hold (h.pending e he)
  · exact hold (h.sent x hx)

/-- The loop of `getNextSid` never has a second round: a pending method with the same id would
be the call's own. -/
theorem not_found (h : s.Numbered draws) (haccounted : s.Accounted nodes) {newSid : ℕ}
    (hcall : s.calls call = .checkSid method newSid) :
    s.clntPendingMethods.find newSid = none := by
  cases hfound : s.clntPendingMethods.find newSid with
  | none => rfl
  | some other =>
    have hmem := OrderedMap.find_eq_some_iff.mp hfound
    have hown := h.calls call newSid (by rw [hcall]; rfl)
    have hother : other.closure = call :=
      Option.some.inj ((h.pending _ hmem).symm.trans hown)
    have hwaiting : 0 < s.waiting call :=
      List.countP_pos_iff.mpr ⟨_, hmem, by simpa using hother⟩
    have hheld : s.held call = 1 := by simp [held, hcall, SendPc.method?]
    have honce := haccounted.once call
    split_ifs at honce <;> omega

theorem register (h : s.Numbered draws) (haccounted : s.Accounted nodes)
    {packet : PacketMethodRequest} (hcall : s.calls call = .register method packet) :
    (s.register call method packet).Numbered draws := by
  have hsid := h.calls call method.sid (by rw [hcall]; rfl)
  have hpacket := h.packet call method packet hcall
  obtain ⟨hclosure, -⟩ := haccounted.holds call method (by rw [hcall]; rfl)
  unfold ClientContext.register
  split_ifs with hfull hused
  · exact (h.finish _).goTo (fun _ hx => by cases hx) (fun _ => SendPc.noConfusion)
      fun _ _ => SendPc.noConfusion
  · exact (h.finish _).goTo (fun _ hx => by cases hx) (fun _ => SendPc.noConfusion)
      fun _ _ => SendPc.noConfusion
  · have hgo : (s.goTo call (.serialize packet)).Numbered draws :=
      h.goTo (fun sid hx => by rw [← Option.some.inj hx, hpacket]; exact hsid)
        (fun _ => SendPc.noConfusion) fun _ _ => SendPc.noConfusion
    refine ⟨hgo.nodup, hgo.sidRef_eq, hgo.drawn, hgo.calls, hgo.packet, fun e he => ?_, hgo.sent⟩
    have hperm := OrderedMap.perm_emplace (v := method) (not_not.mp hused)
    rcases List.mem_cons.mp (hperm.subset he) with rfl | he
    · rw [hclosure]
      exact hsid
    · exact h.pending e he

/-- The next step of a call. -/
theorem advance (h : s.Numbered draws) (haccounted : s.Accounted nodes)
    (hbound : s.started < 2 ^ 32) (call : ℕ) (ok : Bool) :
    ∃ draws, (s.advance call ok).Numbered draws := by
  unfold ClientContext.advance
  split
  · exact ⟨draws, h⟩
  · exact ⟨draws, h⟩
  · next method hcall => exact ⟨_, h.draw haccounted hbound hcall⟩
  · next method newSid hcall =>
    refine ⟨draws, locked_of h (h.goTo (fun sid hx => ?_) (fun _ => SendPc.noConfusion)
      fun _ _ => SendPc.noConfusion)⟩
    exact h.calls call sid (by rw [hcall]; exact hx)
  · next method newSid hcall =>
    rw [if_neg (not_not.mpr (h.not_found haccounted hcall))]
    refine ⟨draws, h.goTo (fun sid hx => ?_) (fun _ => SendPc.noConfusion)
      fun _ _ => SendPc.noConfusion⟩
    exact h.calls call sid (by rw [hcall]; exact hx)
  · next method hcall =>
    split
    · exact ⟨draws, (h.finish _).goTo (fun _ hx => by cases hx) (fun _ => SendPc.noConfusion)
        fun _ _ => SendPc.noConfusion⟩
    · next packet hprepared =>
      refine ⟨draws, h.goTo (fun sid hx => ?_) (fun _ => SendPc.noConfusion)
        fun m p hmp => ?_⟩
      · exact h.calls call sid (by rw [hcall]; exact hx)
      · cases hmp
        exact MethodClient.preparePacket_sid hprepared
  · next method packet hcall => exact ⟨draws, locked_of h (h.register haccounted hcall)⟩
  · next packet hcall =>
    have hsid := h.calls call packet.sid (by rw [hcall]; rfl)
    split_ifs
    · exact ⟨draws, h.goTo (fun sid hx => by cases hx; exact hsid) (fun _ => SendPc.noConfusion)
        fun _ _ => SendPc.noConfusion⟩
    · exact ⟨draws, h.goTo (fun sid hx => by cases hx; exact hsid) (fun _ => SendPc.noConfusion)
        fun _ _ => SendPc.noConfusion⟩
  · next packet hcall =>
    have hsid := h.calls call packet.sid (by rw [hcall]; rfl)
    split_ifs
    · have hgo : (s.goTo call .returned).Numbered draws := h.goTo (fun _ hx => by cases hx)
        (fun _ => SendPc.noConfusion) fun _ _ => SendPc.noConfusion
      refine ⟨draws, hgo.nodup, hgo.sidRef_eq, hgo.drawn, hgo.calls, hgo.packet, hgo.pending,
        fun x hx => ?_⟩
      rcases List.mem_append.mp hx with hx | hx
      · exact h.sent x hx
      · rw [List.mem_singleton.mp hx]
        exact hsid
    · exact ⟨draws, h.goTo (fun sid hx => by cases hx; exact hsid) (fun _ => SendPc.noConfusion)
        fun _ _ => SendPc.noConfusion⟩
  · next sid reason hcall =>
    exact ⟨draws, locked_of h ((h.failClientMethod sid reason).goTo (fun _ hx => by cases hx)
      (fun _ => SendPc.noConfusion) fun _ _ => SendPc.noConfusion)⟩

/-- A step of the context, while the calls fit in the counter. -/
theorem step (h : s.Numbered draws) (haccounted : s.Accounted nodes)
    (hbound : s.started < 2 ^ 32) (action : ClientAction) :
    ∃ draws, (s.step action).Numbered draws := by
  by_cases hdestroyed : s.destroyed
  · rw [ClientContext.step, if_pos hdestroyed]
    exact ⟨draws, h⟩
  · rw [ClientContext.step, if_neg hdestroyed]
    cases action with
    | sendMethod method => exact ⟨draws, h.sendMethod method⟩
    | advance call ok => exact h.advance haccounted hbound call ok
    | response resp => exact ⟨draws, locked_of h (h.completeClientMethod resp)⟩
    | onDisconnection => exact ⟨draws, locked_of h (h.cancelAllClientMethods _)⟩
    | cancelClientMethod controller =>
      exact ⟨draws, locked_of h (h.cancelClientMethod controller)⟩
    | deactivate => exact ⟨draws, locked_of h (h.cancelAllClientMethods _)⟩
    | destroy =>
      refine ⟨draws, locked_of h ?_⟩
      have hcancel := h.cancelAllClientMethods "ERROR, Destruction"
      split_ifs
      · exact ⟨hcancel.nodup, hcancel.sidRef_eq, hcancel.drawn, hcancel.calls, hcancel.packet,
          hcancel.pending, hcancel.sent⟩
      · exact h
    | expire node =>
      exact ⟨draws, h.nodup, h.sidRef_eq, h.drawn, h.calls, h.packet, h.pending, h.sent⟩

end Numbered

/-! ### Runs -/

theorem started_locked {body : ClientContext → ClientContext}
    (hbody : (body s).started = s.started) : (s.locked body).started = s.started :=
  locked_of (P := fun t => t.started = s.started) rfl hbody

theorem started_advance (s : ClientContext) (call : ℕ) (ok : Bool) :
    (s.advance call ok).started = s.started := by
  unfold advance
  split
  · rfl
  · rfl
  · rfl
  · exact started_locked rfl
  · split_ifs <;> rfl
  · split <;> rfl
  · refine started_locked ?_
    unfold register
    split_ifs <;> rfl
  · split_ifs <;> rfl
  · split_ifs <;> rfl
  · refine started_locked ?_
    unfold failClientMethod
    split <;> rfl

/-- Only a new call counts. -/
theorem started_step (s : ClientContext) (action : ClientAction) :
    (s.step action).started ≤ s.started + if action.isSendMethod then 1 else 0 := by
  by_cases hdestroyed : s.destroyed
  · rw [step, if_pos hdestroyed]
    exact Nat.le_add_right _ _
  · rw [step, if_neg hdestroyed]
    cases action with
    | sendMethod method => exact le_rfl
    | advance call ok => exact (started_advance s call ok).le
    | response resp =>
      refine (started_locked ?_).le
      unfold completeClientMethod
      split <;> rfl
    | onDisconnection => exact (started_locked rfl).le
    | cancelClientMethod controller =>
      refine (started_locked ?_).le
      unfold cancelClientMethod
      split <;> rfl
    | deactivate => exact (started_locked rfl).le
    | destroy =>
      refine (started_locked ?_).le
      split_ifs <;> rfl
    | expire node => exact le_rfl

theorem run_accounted {draws : List ℕ} (h : s.Accounted nodes) (hnumbered : s.Numbered draws)
    {actions : List ClientAction}
    (hcalls : s.started + actions.countP ClientAction.isSendMethod < 2 ^ 32)
    (hnodes : ∀ action ∈ actions, action.KeepsNodes nodes) :
    (run step actions s).Accounted nodes ∧ ∃ draws, (run step actions s).Numbered draws := by
  induction actions generalizing s draws with
  | nil => exact ⟨h, draws, hnumbered⟩
  | cons action actions ih =>
    rw [List.countP_cons] at hcalls
    have hstarted := started_step s action
    obtain ⟨draws', hnumbered'⟩ := hnumbered.step h (by omega) action
    have hbound : (s.step action).started + actions.countP ClientAction.isSendMethod < 2 ^ 32 := by
      omega
    exact ih (h.step (hnodes action List.mem_cons_self)) hnumbered' hbound
      fun a ha => hnodes a (List.mem_cons_of_mem _ ha)

/-- What a response does: nothing, or it ends the method that waits under its id. -/
theorem Accounted.response (h : s.Accounted nodes) (resp : PacketMethodResponse) :
    (s.clntPendingMethods.find resp.refSid = none ∧ s.completeClientMethod resp = s) ∨
    ∃ method outcome, s.clntPendingMethods.find resp.refSid = some method ∧
      method.sid = resp.refSid ∧
      s.completeClientMethod resp = { s with
        clntPendingMethods := s.clntPendingMethods.erase resp.refSid
        closureRuns := s.closureRuns ++ [⟨method.closure, outcome⟩] } := by
  unfold ClientContext.completeClientMethod
  cases hfound : s.clntPendingMethods.find resp.refSid with
  | none => exact Or.inl ⟨rfl, rfl⟩
  | some method =>
    obtain ⟨outcome, hrun⟩ := MethodClient.respond_eq (h.node_of_found hfound) resp
    refine Or.inr ⟨method, outcome, rfl, ?_, ?_⟩
    · exact (h.pending _ (OrderedMap.find_eq_some_iff.mp hfound)).1
    · simp only [hrun, ClientContext.finish]

/-- Every closure runs at most once, and once for every call when the context is destroyed; a
response ends the one method that waits under its id, which no other call has drawn. -/
theorem closures_run_once (nodes : Nodes) (actions : List ClientAction)
    (hcalls : actions.countP ClientAction.isSendMethod < 2 ^ 32)
    (hnodes : ∀ action ∈ actions, action.KeepsNodes nodes) :
    (∀ call, (run step actions (init nodes)).ran call ≤ 1) ∧
    ((run step actions (init nodes)).destroyed →
      ∀ call < (run step actions (init nodes)).started,
        (run step actions (init nodes)).ran call = 1) ∧
    ∀ s, s = run step actions (init nodes) → ∀ resp,
      (s.clntPendingMethods.find resp.refSid = none ∧ s.completeClientMethod resp = s) ∨
      ∃ method outcome, s.clntPendingMethods.find resp.refSid = some method ∧
        method.sid = resp.refSid ∧
        (∀ x ∈ s.sent, x.2.sid = resp.refSid → x.1 = method.closure) ∧
        (∀ call, (s.calls call).sid? = some resp.refSid → call = method.closure) ∧
        s.completeClientMethod resp = { s with
          clntPendingMethods := s.clntPendingMethods.erase resp.refSid
          closureRuns := s.closureRuns ++ [⟨method.closure, outcome⟩] } := by
  obtain ⟨h, draws, hnumbered⟩ := run_accounted (Accounted.init nodes) (Numbered.init nodes)
    (by simpa [init] using hcalls) hnodes
  refine ⟨fun call => ?_, fun hdestroyed call hcall => ?_, fun s hs resp => ?_⟩
  · have honce := h.once call
    split_ifs at honce <;> omega
  · obtain ⟨hunused, hempty⟩ := h.emptied hdestroyed
    have honce := h.once call
    have hheld : (run step actions (init nodes)).held call = 0 := by
      have hreturned := hunused call hcall
      unfold held
      cases hpc : (run step actions (init nodes)).calls call <;>
        simp_all [SendPc.isReturned, SendPc.method?]
    have hwaiting : (run step actions (init nodes)).waiting call = 0 := by
      rw [waiting, hempty, List.countP_nil]
    rw [if_pos hcall] at honce
    omega
  · rw [← hs] at h hnumbered
    rcases h.response resp with hnone | ⟨method, outcome, hfound, hsid, heq⟩
    · exact Or.inl hnone
    · have hdrawn := hnumbered.pending _ (OrderedMap.find_eq_some_iff.mp hfound)
      refine Or.inr ⟨method, outcome, hfound, hsid, fun x hx hsame => ?_, fun call hcall => ?_,
        heq⟩
      · have hx' := hnumbered.sent x hx
        rw [hsame] at hx'
        exact Option.some.inj (hx'.symm.trans hdrawn)
      · exact Option.some.inj ((hnumbered.calls call _ hcall).symm.trans hdrawn)

/-- A call that is answered, a second answer to it, a call that is never answered, and the
destruction. -/
def twoCalls : List ClientAction :=
  let method : MethodClient := ⟨⟨"interface", 1⟩, 0, 0, 0, 0, some [], fun _ => true, 0⟩
  let response : PacketMethodResponse := ⟨0, 0, [], some ⟨resultSuccess, ""⟩⟩
  .sendMethod method :: List.replicate 7 (.advance 0 true) ++ [.response response,
    .response response, .sendMethod method] ++ List.replicate 7 (.advance 1 true) ++ [.destroy]

theorem closures_run_once_small :
    (run step twoCalls (init fun _ => some ["node"])).ran 1 = 1 :=
  (closures_run_once (fun _ => some ["node"]) twoCalls (by decide) (by decide)).2.1 (by decide) 1
    (by decide)

end ClientContext

end Octf.Communication
