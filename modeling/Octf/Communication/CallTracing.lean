import Octf.Communication.ClientCompletion

/-! What a client sends for its calls: every packet carries the method of the one call that sent it,
and a method waits for its response from its registration on. -/
namespace Octf.Communication
open Foundation

/-- The packet that a call has prepared. -/
def SendPc.packet? : SendPc → Option PacketMethodRequest
  | .register _ packet | .serialize packet | .sendDataPacket packet => some packet
  | _ => none

/-- The sequence id under which a call has registered its method. -/
def SendPc.registered? : SendPc → Option ℕ
  | .serialize packet | .sendDataPacket packet => some packet.sid
  | .failClientMethod sid _ => some sid
  | _ => none

namespace MethodClient

/-- A method is the one of a call, with a sequence id and a number of its own. -/
def Of (m m' : MethodClient) : Prop := m' = { m with sid := m'.sid, closure := m'.closure }

/-- A packet with the method of a call. -/
structure Carries (nodes : Nodes) (m : MethodClient) (packet : PacketMethodRequest) : Prop where
  path : nodes m.node = some packet.path
  interface : packet.interface = m.interface
  mid : packet.mid = m.mId
  request : m.request = some packet.request

theorem Of.carries {nodes : Nodes} {m m' : MethodClient} {packet : PacketMethodRequest}
    (h : m.Of m') (hpacket : m'.preparePacket nodes = some packet) : m.Carries nodes packet := by
  unfold Of at h
  rw [h] at hpacket
  unfold preparePacket at hpacket
  split at hpacket
  · cases hpacket
  · next path hpath =>
    obtain ⟨request, hrequest, rfl⟩ := Option.map_eq_some_iff.mp hpacket
    exact ⟨hpath, rfl, rfl, hrequest⟩

theorem outcome_of_fail {nodes : Nodes} {m : MethodClient} {reason : String} {r : ClosureRun}
    (h : r ∈ m.fail reason nodes) : r.outcome = .failed reason := by
  unfold fail at h
  split at h
  · cases h
  · rw [List.mem_singleton.mp h]

/-- A closure completes with the response of a success only. -/
theorem completed_of_respond {nodes : Nodes} {m : MethodClient} {resp : PacketMethodResponse}
    {r : ClosureRun} {response : List UInt8} (h : r ∈ m.respond resp nodes)
    (houtcome : r.outcome = .completed response) :
    r.closure = m.closure ∧ (∃ result, resp.result = some result ∧ result.code = resultSuccess) ∧
      resp.response = response := by
  have hfail : ∀ reason, r ∉ m.fail reason nodes := fun reason hr => by
    rw [outcome_of_fail hr] at houtcome
    cases houtcome
  unfold respond at h
  split at h
  · exact absurd h (hfail _)
  · next result hresult =>
    split_ifs at h with hcode
    · exact absurd h (hfail _)
    · exact absurd h (hfail _)
    · unfold complete at h
      split at h
      · cases h
      · split_ifs at h
        · rw [List.mem_singleton.mp h] at houtcome ⊢
          cases houtcome
          exact ⟨rfl, ⟨result, hresult, not_not.mp hcode⟩, rfl⟩
        · exact absurd h (hfail _)

end MethodClient

namespace ClientContext

variable {nodes : Nodes} {s : ClientContext} {call : ℕ} {methods : List MethodClient}
  {draws : List ℕ}

/-- The calls with the methods that they were made with, in the order in which they began. -/
structure Traced (nodes : Nodes) (methods : List MethodClient) (s : ClientContext) : Prop where
  started : methods.length = s.started
  made : ∀ x m', (s.calls x).method? = some m' → ∃ m, methods[x]? = some m ∧ m.Of m'
  packets : ∀ x packet, (s.calls x).packet? = some packet →
    ∃ m, methods[x]? = some m ∧ m.Carries nodes packet
  sent : ∀ x ∈ s.sent, s.calls x.1 = .returned ∧
    ∃ m, methods[x.1]? = some m ∧ m.Carries nodes x.2
  once : (s.sent.map Prod.fst).Nodup
  waits : ∀ e ∈ s.clntPendingMethods.entries, (s.calls e.2.closure).registered? = some e.1 ∨
    ∃ packet, (e.2.closure, packet) ∈ s.sent ∧ packet.sid = e.1

namespace Traced

theorem init (nodes : Nodes) : (ClientContext.init nodes).Traced nodes [] where
  started := rfl
  made x m' h := by cases h
  packets x packet h := by cases h
  sent x hx := by cases hx
  once := List.nodup_nil
  waits e he := by cases he

/-- Methods leave the map, and closures run. -/
theorem settle (h : s.Traced nodes methods) {rest : OrderedMap MethodClient}
    (hsub : ∀ e ∈ rest.entries, e ∈ s.clntPendingMethods.entries) (runs : List ClosureRun) :
    ({ s.finish runs with clntPendingMethods := rest } : ClientContext).Traced nodes methods :=
  ⟨h.started, h.made, h.packets, h.sent, h.once, fun e he => h.waits e (hsub e he)⟩

/-- A call that has not returned goes on, with the method and the packet that are its own. -/
theorem goTo (h : s.Traced nodes methods) {pc : SendPc} {sidRef : ℕ} {clntLock : Option ℕ}
    (hcall : s.calls call ≠ .returned)
    (hmade : ∀ m', pc.method? = some m' → ∃ m, methods[call]? = some m ∧ m.Of m')
    (hpackets : ∀ packet, pc.packet? = some packet →
      ∃ m, methods[call]? = some m ∧ m.Carries nodes packet)
    (hwaits : ∀ e ∈ s.clntPendingMethods.entries, e.2.closure = call →
      (s.calls call).registered? = some e.1 → pc.registered? = some e.1) :
    (({ s with sidRef := sidRef, clntLock := clntLock } : ClientContext).goTo call pc).Traced
      nodes methods where
  started := h.started
  made x m' hx := by
    rw [calls_goTo] at hx
    split_ifs at hx with heq
    · rw [heq]
      exact hmade m' hx
    · exact h.made x m' hx
  packets x packet hx := by
    rw [calls_goTo] at hx
    split_ifs at hx with heq
    · rw [heq]
      exact hpackets packet hx
    · exact h.packets x packet hx
  sent x hx := by
    have hreturned := h.sent x hx
    rw [calls_goTo, if_neg]
    · exact hreturned
    · intro heq
      rw [heq] at hreturned
      exact hcall hreturned.1
  once := h.once
  waits e he := by
    rw [calls_goTo]
    split_ifs with heq
    · rcases h.waits e he with hregistered | hsent
      · rw [heq] at hregistered
        exact .inl (hwaits e he heq hregistered)
      · exact .inr hsent
    · exact h.waits e he

theorem finish (h : s.Traced nodes methods) (runs : List ClosureRun) :
    (s.finish runs).Traced nodes methods :=
  ⟨h.started, h.made, h.packets, h.sent, h.once, h.waits⟩

/-- A call that has registered nothing returns. -/
theorem returns (h : s.Traced nodes methods) (runs : List ClosureRun)
    (hcall : s.calls call ≠ .returned) (hregistered : (s.calls call).registered? = none) :
    ((s.finish runs).goTo call .returned).Traced nodes methods :=
  (h.finish runs).goTo hcall nofun nofun fun _ _ _ hsome =>
    absurd (hregistered.symm.trans hsome) nofun

theorem sendMethod (h : s.Traced nodes methods) (haccounted : s.Accounted nodes)
    (method : MethodClient) :
    (s.sendMethod method).Traced nodes (methods ++ [method]) := by
  have hidle := haccounted.fresh s.started le_rfl
  have hold : ∀ {x : ℕ} {P : MethodClient → Prop}, (∃ m, methods[x]? = some m ∧ P m) →
      ∃ m, (methods ++ [method])[x]? = some m ∧ P m := by
    rintro x P ⟨m, hm, hP⟩
    refine ⟨m, ?_, hP⟩
    rw [List.getElem?_append_left (List.getElem?_eq_some_iff.mp hm).1, hm]
  have hgrown : ({ s with started := s.started + 1 } : ClientContext).Traced nodes
      (methods ++ [method]) := by
    refine ⟨by simp [h.started], fun x m' hx => hold (h.made x m' hx),
      fun x packet hx => hold (h.packets x packet hx), fun x hx => ?_, h.once, h.waits⟩
    obtain ⟨hreturned, hm⟩ := h.sent x hx
    exact ⟨hreturned, hold hm⟩
  refine hgrown.goTo (by simp only [hidle]; nofun) (fun m' hm' => ?_) nofun fun e _ _ hnone => ?_
  · refine ⟨method, ?_, ?_⟩
    · rw [← h.started, List.getElem?_concat_length]
    · cases hm'
      rfl
  · rw [hidle] at hnone
    cases hnone

theorem register (h : s.Traced nodes methods) (haccounted : s.Accounted nodes)
    {method : MethodClient} {packet : PacketMethodRequest}
    (hcall : s.calls call = .register method packet) (hsid : packet.sid = method.sid) :
    (s.register call method packet).Traced nodes methods := by
  have hpacket := h.packets call packet (by rw [hcall]; rfl)
  obtain ⟨hclosure, -⟩ := haccounted.holds call method (by rw [hcall]; rfl)
  unfold ClientContext.register
  split_ifs with hfull hused
  · exact h.returns _ (by rw [hcall]; nofun) (by rw [hcall]; rfl)
  · exact h.returns _ (by rw [hcall]; nofun) (by rw [hcall]; rfl)
  · have hgo : (s.goTo call (.serialize packet)).Traced nodes methods :=
      h.goTo (by rw [hcall]; nofun) nofun (fun p hp => by cases hp; exact hpacket)
        fun e _ _ hnone => by rw [hcall] at hnone; cases hnone
    refine ⟨hgo.started, hgo.made, hgo.packets, hgo.sent, hgo.once, fun e he => ?_⟩
    have hperm := OrderedMap.perm_emplace (v := method) (not_not.mp hused)
    rcases List.mem_cons.mp (hperm.subset he) with rfl | he
    · left
      simp only [calls_goTo, hclosure, if_true, SendPc.registered?, hsid]
    · exact hgo.waits e he

/-- The packet goes out, and the call returns. -/
theorem sendDataPacket (h : s.Traced nodes methods) {packet : PacketMethodRequest}
    (hcall : s.calls call = .sendDataPacket packet) :
    (({ s with sent := s.sent ++ [(call, packet)] } : ClientContext).goTo call .returned).Traced
      nodes methods := by
  have hpacket := h.packets call packet (by rw [hcall]; rfl)
  refine ⟨h.started, fun x m' hx => ?_, fun x p hx => ?_, fun x hx => ?_, ?_, fun e he => ?_⟩
  · rw [calls_goTo] at hx
    split_ifs at hx
    · cases hx
    · exact h.made x m' hx
  · rw [calls_goTo] at hx
    split_ifs at hx
    · cases hx
    · exact h.packets x p hx
  · rcases List.mem_append.mp hx with hx | hx
    · obtain ⟨hreturned, hm⟩ := h.sent x hx
      rw [calls_goTo]
      split_ifs
      · exact ⟨rfl, hm⟩
      · exact ⟨hreturned, hm⟩
    · rw [List.mem_singleton.mp hx, calls_goTo, if_pos rfl]
      exact ⟨rfl, hpacket⟩
  · change ((s.sent ++ [(call, packet)]).map Prod.fst).Nodup
    rw [List.map_append, List.nodup_append]
    refine ⟨h.once, List.nodup_singleton _, ?_⟩
    rintro x hx y hy rfl
    obtain ⟨z, hz, rfl⟩ := List.mem_map.mp hx
    rw [List.map_singleton, List.mem_singleton] at hy
    have hreturned := (h.sent z hz).1
    rw [hy, hcall] at hreturned
    cases hreturned
  · change (_ : SendPc).registered? = _ ∨ ∃ p, (e.2.closure, p) ∈ s.sent ++ [(call, packet)] ∧ _
    rcases h.waits e he with hregistered | ⟨p, hp, hsid⟩
    · by_cases heq : e.2.closure = call
      · rw [heq, hcall] at hregistered
        refine .inr ⟨packet, ?_, Option.some.inj hregistered⟩
        rw [heq]
        exact List.mem_append_right _ (List.mem_singleton_self _)
      · rw [calls_goTo, if_neg heq]
        exact .inl hregistered
    · exact .inr ⟨p, List.mem_append_left _ hp, hsid⟩

/-- The next step of a call. -/
theorem advance (h : s.Traced nodes methods) (haccounted : s.Accounted nodes)
    (hnumbered : s.Numbered draws) (call : ℕ) (ok : Bool) :
    (s.advance call ok).Traced nodes methods := by
  unfold ClientContext.advance
  split
  · exact h
  · exact h
  · next method hcall =>
    have hmade := h.made call method (by rw [hcall]; rfl)
    exact h.goTo (by rw [hcall]; nofun) (fun m' hm' => by cases hm'; exact hmade) nofun
      fun e _ _ hnone => by rw [hcall] at hnone; cases hnone
  · next method newSid hcall =>
    have hmade := h.made call method (by rw [hcall]; rfl)
    exact locked_of h (h.goTo (by rw [hcall]; nofun) (fun m' hm' => by cases hm'; exact hmade) nofun
      fun e _ _ hnone => by rw [hcall] at hnone; cases hnone)
  · next method newSid hcall =>
    have hmade := h.made call method (by rw [hcall]; rfl)
    split_ifs
    · exact h.goTo (by rw [hcall]; nofun) (fun m' hm' => by cases hm'; exact hmade) nofun
        fun e _ _ hnone => by rw [hcall] at hnone; cases hnone
    · refine h.goTo (by rw [hcall]; nofun) (fun m' hm' => ?_) nofun
        fun e _ _ hnone => by rw [hcall] at hnone; cases hnone
      obtain ⟨m, hm, hof⟩ := hmade
      cases hm'
      refine ⟨m, hm, ?_⟩
      unfold MethodClient.Of at hof ⊢
      rw [hof]
      rfl
  · next method hcall =>
    have hmade := h.made call method (by rw [hcall]; rfl)
    split
    · exact h.returns _ (by rw [hcall]; nofun) (by rw [hcall]; rfl)
    · next packet hprepared =>
      refine h.goTo (by rw [hcall]; nofun) (fun m' hm' => by cases hm'; exact hmade)
        (fun p hp => ?_) fun e _ _ hnone => by rw [hcall] at hnone; cases hnone
      obtain ⟨m, hm, hof⟩ := hmade
      cases hp
      exact ⟨m, hm, hof.carries (haccounted.nodes_eq ▸ hprepared)⟩
  · next method packet hcall =>
    exact locked_of h (h.register haccounted hcall (hnumbered.packet call method packet hcall))
  · next packet hcall =>
    have hpacket := h.packets call packet (by rw [hcall]; rfl)
    split_ifs
    · exact h.goTo (by rw [hcall]; nofun) nofun (fun p hp => by cases hp; exact hpacket)
        fun e _ _ hsome => by rw [hcall] at hsome; exact hsome
    · exact h.goTo (by rw [hcall]; nofun) nofun nofun
        fun e _ _ hsome => by rw [hcall] at hsome; exact hsome
  · next packet hcall =>
    split_ifs
    · exact h.sendDataPacket hcall
    · exact h.goTo (by rw [hcall]; nofun) nofun nofun
        fun e _ _ hsome => by rw [hcall] at hsome; exact hsome
  · next sid reason hcall =>
    refine locked_of h ?_
    have hcalls : (s.failClientMethod sid reason).calls = s.calls := by
      unfold ClientContext.failClientMethod
      split <;> rfl
    have hfailed : (s.failClientMethod sid reason).Traced nodes methods := by
      unfold ClientContext.failClientMethod
      split
      · exact h
      · exact h.settle (fun e he => OrderedMap.mem_of_mem_removeFirst he) _
    refine hfailed.goTo (by rw [hcalls, hcall]; nofun) nofun nofun fun e he _ hsome => ?_
    -- what was registered under the id is gone
    rw [hcalls, hcall] at hsome
    obtain rfl : sid = e.1 := Option.some.inj hsome
    have hgone : (s.failClientMethod e.1 reason).clntPendingMethods.find e.1 = none := by
      unfold ClientContext.failClientMethod
      split
      · next hnone => exact hnone
      · exact (OrderedMap.find_erase ..).trans (if_pos rfl)
    exact absurd rfl (OrderedMap.find_eq_none_iff.mp hgone e he)

/-- What an action does, but for a new call. -/
theorem step (h : s.Traced nodes methods) (haccounted : s.Accounted nodes)
    (hnumbered : s.Numbered draws) {action : ClientAction} (hsend : action.isSendMethod = false) :
    (s.step action).Traced nodes methods := by
  have hcancel : ∀ reason, (s.cancelAllClientMethods reason).Traced nodes methods :=
    fun reason => h.settle (fun e he => by cases he) _
  unfold ClientContext.step
  split_ifs with hdestroyed
  · exact h
  · cases action with
    | sendMethod method => cases hsend
    | advance call ok => exact h.advance haccounted hnumbered call ok
    | response resp =>
      refine locked_of h ?_
      unfold completeClientMethod
      split
      · exact h
      · exact h.settle (fun e he => OrderedMap.mem_of_mem_removeFirst he) _
    | onDisconnection => exact locked_of h (hcancel _)
    | cancelClientMethod controller =>
      refine locked_of h ?_
      unfold ClientContext.cancelClientMethod
      split
      · exact h
      · exact h.settle (fun e he => OrderedMap.mem_of_mem_removeFirst he) _
    | deactivate => exact locked_of h (hcancel _)
    | destroy =>
      refine locked_of h ?_
      split_ifs
      · exact ⟨h.started, h.made, h.packets, h.sent, h.once, fun e he => by cases he⟩
      · exact h
    | expire node => exact ⟨h.started, h.made, h.packets, h.sent, h.once, h.waits⟩

end Traced

/-- What a step can add: a packet, a method that its call registers, and runs of closures, which
fail but for a response. -/
structure Adds (action : ClientAction) (s t : ClientContext) : Prop where
  sent : s.sent <+: t.sent
  pending : ∀ e ∈ t.clntPendingMethods.entries, e ∈ s.clntPendingMethods.entries ∨
    ∃ call packet, s.calls call = .register e.2 packet ∧ e.1 = e.2.sid
  runs : ∀ r ∈ t.closureRuns, r ∈ s.closureRuns ∨ (∃ reason, r.outcome = .failed reason) ∨
    ∃ resp method, action = .response resp ∧ s.clntPendingMethods.find resp.refSid = some method ∧
      r ∈ method.respond resp s.nodes

namespace Adds

variable {action : ClientAction} {t : ClientContext}

theorem refl (action : ClientAction) (s : ClientContext) : Adds action s s :=
  ⟨List.prefix_rfl, fun _ he => .inl he, fun _ hr => .inl hr⟩

theorem goTo (h : Adds action s t) (call : ℕ) (pc : SendPc) : Adds action s (t.goTo call pc) :=
  ⟨h.sent, h.pending, h.runs⟩

/-- Methods leave the map and fail. -/
theorem settle (action : ClientAction) {rest : OrderedMap MethodClient} {runs : List ClosureRun}
    (hsub : ∀ e ∈ rest.entries, e ∈ s.clntPendingMethods.entries)
    (hfailed : ∀ r ∈ runs, ∃ reason, r.outcome = .failed reason) :
    Adds action s { s.finish runs with clntPendingMethods := rest } where
  sent := List.prefix_rfl
  pending := fun e he => .inl (hsub e he)
  runs := by
    intro r hr
    rcases List.mem_append.mp hr with hr | hr
    · exact .inl hr
    · exact .inr (.inl (hfailed r hr))

theorem fail (action : ClientAction) (s : ClientContext) (m : MethodClient) (reason : String) :
    Adds action s (s.finish (m.fail reason s.nodes)) :=
  settle action (fun _ he => he) fun _ hr => ⟨reason, MethodClient.outcome_of_fail hr⟩

theorem cancelAll (action : ClientAction) (s : ClientContext) (reason : String) :
    Adds action s (s.cancelAllClientMethods reason) := by
  refine settle action (fun e he => by cases he) fun r hr => ?_
  obtain ⟨e, -, hr⟩ := List.mem_flatMap.mp hr
  exact ⟨reason, MethodClient.outcome_of_fail hr⟩

theorem register (action : ClientAction) {method : MethodClient} {packet : PacketMethodRequest}
    (hcall : s.calls call = .register method packet) :
    Adds action s (s.register call method packet) := by
  unfold ClientContext.register
  split_ifs with hfull hused
  · exact (fail action s method _).goTo call .returned
  · exact (fail action s method _).goTo call .returned
  · refine ⟨List.prefix_rfl, fun e he => ?_, fun r hr => .inl hr⟩
    have hperm := OrderedMap.perm_emplace (v := method) (not_not.mp hused)
    rcases List.mem_cons.mp (hperm.subset he) with rfl | he
    · exact .inr ⟨call, packet, hcall, rfl⟩
    · exact .inl he

theorem advance (action : ClientAction) (s : ClientContext) (call : ℕ) (ok : Bool) :
    Adds action s (s.advance call ok) := by
  have hsame : ∀ {t : ClientContext}, t.sent = s.sent →
    t.clntPendingMethods = s.clntPendingMethods →
      t.closureRuns = s.closureRuns → Adds action s t := fun hsent hpending hruns =>
    ⟨hsent ▸ List.prefix_rfl, fun e he => .inl (hpending ▸ he), fun r hr => .inl (hruns ▸ hr)⟩
  unfold ClientContext.advance
  split
  · exact refl action s
  · exact refl action s
  · exact hsame rfl rfl rfl
  · refine locked_of (refl action s) ?_
    exact hsame rfl rfl rfl
  · split_ifs <;> exact hsame rfl rfl rfl
  · split
    · exact (fail action s _ _).goTo call .returned
    · exact hsame rfl rfl rfl
  · next method packet hcall => exact locked_of (refl action s) (register action hcall)
  · split_ifs <;> exact hsame rfl rfl rfl
  · split_ifs
    · exact ⟨List.prefix_append .., fun _ he => .inl he, fun _ hr => .inl hr⟩
    · exact hsame rfl rfl rfl
  · refine locked_of (refl action s) (Adds.goTo ?_ call .returned)
    unfold failClientMethod
    split
    · exact refl action s
    · exact settle action (fun e he => OrderedMap.mem_of_mem_removeFirst he)
        fun r hr => ⟨_, MethodClient.outcome_of_fail hr⟩

end Adds

theorem adds_step (s : ClientContext) (action : ClientAction) : Adds action s (s.step action) := by
  unfold ClientContext.step
  split_ifs
  · exact .refl action s
  · cases action with
    | sendMethod method => exact ⟨List.prefix_rfl, fun _ he => .inl he, fun _ hr => .inl hr⟩
    | advance call ok => exact .advance _ s call ok
    | response resp =>
      refine locked_of (.refl _ s) ?_
      unfold completeClientMethod
      split
      · exact .refl _ s
      · next method hfound =>
        refine ⟨List.prefix_rfl, fun e he => .inl (OrderedMap.mem_of_mem_removeFirst he),
          fun r hr => ?_⟩
        rcases List.mem_append.mp hr with hr | hr
        · exact .inl hr
        · exact .inr (.inr ⟨resp, method, rfl, hfound, hr⟩)
    | onDisconnection => exact locked_of (.refl _ s) (.cancelAll _ s _)
    | cancelClientMethod controller =>
      refine locked_of (.refl _ s) ?_
      unfold cancelClientMethod
      split
      · exact .refl _ s
      · exact .settle _ (fun e he => OrderedMap.mem_of_mem_removeFirst he)
          fun r hr => ⟨_, MethodClient.outcome_of_fail hr⟩
    | deactivate => exact locked_of (.refl _ s) (.cancelAll _ s _)
    | destroy =>
      refine locked_of (.refl _ s) ?_
      split_ifs
      · have hcancel := Adds.cancelAll .destroy s "ERROR, Destruction"
        exact ⟨hcancel.sent, hcancel.pending, hcancel.runs⟩
      · exact .refl _ s
    | expire node => exact ⟨List.prefix_rfl, fun _ he => .inl he, fun _ hr => .inl hr⟩

end ClientContext

end Octf.Communication
