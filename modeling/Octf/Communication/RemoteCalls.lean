import Octf.Communication.CallTracing
import Octf.Communication.RequestTracing

/-! Remote calls over one connection: a client context, a server context and the two streams of
packets between them. What a closure is told is the answer to its own call. -/
namespace Octf.Communication
open Foundation

/-- Two contexts that are connected. A stream delivers the packets that went out in their order. -/
structure RemoteCalls where
  client : ClientContext
  server : ServerContext
  /-- The methods of the calls, in the order in which they began. -/
  methods : List MethodClient
  /-- How many requests the server and how many responses the client has received. -/
  requests : ℕ
  responses : ℕ

inductive RemoteAction where
  | client (action : ClientAction)
  | server (action : ServerAction)
  /-- the next request or response reaches the other side -/
  | request
  | response

/-- Packets come over the streams only, and the nodes of the client live. -/
def RemoteAction.Fits (nodes : Nodes) : RemoteAction → Prop
  | .client (.response _) => False
  | .client action => action.KeepsNodes nodes
  | .server (.receive _) => False
  | _ => True

instance (nodes : Nodes) : DecidablePred (RemoteAction.Fits nodes)
  | .client (.response _) | .server (.receive _) => .isFalse id
  | .client (.sendMethod m) =>
    inferInstanceAs (Decidable (ClientAction.KeepsNodes _ (.sendMethod m)))
  | .client (.expire _) => .isFalse id
  | .client (.advance _ _) | .client .onDisconnection | .client (.cancelClientMethod _)
  | .client .deactivate | .client .destroy | .server (.handle _) | .server (.complete _ _ _)
  | .server (.send _ _) | .server .disconnect | .request | .response => .isTrue trivial

def RemoteAction.isCall : RemoteAction → Bool
  | .client (.sendMethod _) => true
  | _ => false

namespace RemoteCalls

def init (nodes : Nodes) : RemoteCalls := ⟨.init nodes, .init, [], 0, 0⟩

/-- A new call, unless the context was destroyed. -/
def call (method : MethodClient) (s : RemoteCalls) : RemoteCalls :=
  { s with
    client := s.client.step (.sendMethod method)
    methods := if s.client.destroyed then s.methods else s.methods ++ [method] }

/-- The receive thread of the server takes a packet when it is back from the last one. -/
def deliverRequest (s : RemoteCalls) : RemoteCalls :=
  match s.client.sent[s.requests]? with
  | none => s
  | some (_, packet) =>
    if s.server.fault = none ∧ s.server.rx = .receiving then
      { s with server := s.server.step (.receive packet), requests := s.requests + 1 }
    else s

/-- The receive thread of the client waits for the lock. -/
def deliverResponse (s : RemoteCalls) : RemoteCalls :=
  match s.server.responses[s.responses]? with
  | none => s
  | some (_, resp) =>
    if s.client.destroyed = false ∧ s.client.clntLock = none then
      { s with client := s.client.step (.response resp), responses := s.responses + 1 }
    else s

def step (action : RemoteAction) (s : RemoteCalls) : RemoteCalls :=
  match action with
  | .client (.sendMethod method) => s.call method
  | .client action => { s with client := s.client.step action }
  | .server action => { s with server := s.server.step action }
  | .request => s.deliverRequest
  | .response => s.deliverResponse

theorem getElem?_of_prefix {α : Type*} {xs ys : List α} (h : xs <+: ys) {i : ℕ} {x : α}
    (hx : xs[i]? = some x) : ys[i]? = some x := by
  obtain ⟨zs, rfl⟩ := h
  rw [List.getElem?_append_left (List.getElem?_eq_some_iff.mp hx).1, hx]

theorem take_eq_take_of_le {α : Type*} {xs ys : List α} (h : xs <+: ys) {n : ℕ}
    (hn : n ≤ xs.length) :
    ys.take n = xs.take n := by
  obtain ⟨zs, rfl⟩ := h
  exact List.take_append_of_le_length hn

/-- The server has answered the request of a call with success, and the answer has come. -/
def Answered (s : RemoteCalls) (call : ℕ) (response : List UInt8) : Prop :=
  ∃ r ∈ s.server.responses.take s.responses, ∃ packet, s.client.sent[r.1]? = some (call, packet) ∧
    (∃ result, r.2.result = some result ∧ result.code = resultSuccess) ∧ r.2.response = response

structure Inv (nodes : Nodes) (draws : List ℕ) (s : RemoteCalls) : Prop where
  accounted : s.client.Accounted nodes
  numbered : s.client.Numbered draws
  traced : s.client.Traced nodes s.methods
  tracked : s.server.Tracked
  served : s.server.Served ((s.client.sent.take s.requests).map Prod.snd)
  requests : s.requests ≤ s.client.sent.length
  responses : s.responses ≤ s.server.responses.length
  /-- what was answered does not wait any more -/
  gone : ∀ r ∈ s.server.responses.take s.responses,
    ∀ e ∈ s.client.clntPendingMethods.entries, e.1 ≠ r.2.refSid
  answered : ∀ r ∈ s.client.closureRuns, ∀ response, r.outcome = .completed response →
    s.Answered r.closure response

namespace Inv

variable {nodes : Nodes} {draws : List ℕ} {s : RemoteCalls}

theorem init (nodes : Nodes) : Inv nodes [] (init nodes) where
  accounted := .init nodes
  numbered := .init nodes
  traced := .init nodes
  tracked := .init
  served := .init
  requests := le_rfl
  responses := le_rfl
  gone r hr := by simp [RemoteCalls.init, ServerContext.init] at hr
  answered r hr := by simp [RemoteCalls.init, ClientContext.init] at hr

/-- A method of the server is that of a request that was sent. -/
theorem request_of (h : Inv nodes draws s) {i : ℕ} (hi : i < s.server.received) :
    ∃ call packet, s.client.sent[i]? = some (call, packet) ∧
      (s.server.methods i).Matches packet ∧ draws[packet.sid]? = some call := by
  obtain ⟨packet, hpacket, hmatches⟩ := h.served.methods i hi
  rw [List.getElem?_map, Option.map_eq_some_iff] at hpacket
  obtain ⟨⟨call, _⟩, hsent, rfl⟩ := hpacket
  have hsent' := getElem?_of_prefix (List.take_prefix ..) hsent
  exact ⟨call, _, hsent', hmatches, h.numbered.sent _ (List.mem_of_getElem? hsent')⟩

theorem request_of_response (h : Inv nodes draws s) {r : ℕ × PacketMethodResponse}
    (hr : r ∈ s.server.responses) :
    ∃ call packet, s.client.sent[r.1]? = some (call, packet) ∧ draws[r.2.refSid]? = some call := by
  obtain ⟨hlt, hsid⟩ := h.tracked.sid r hr
  obtain ⟨call, packet, hsent, hmatches, hdrawn⟩ := h.request_of hlt
  exact ⟨call, packet, hsent, by rw [hsid, hmatches.sequenceId, hdrawn]⟩

/-- No step of the client lets an answered method wait again. -/
theorem gone_step (h : Inv nodes draws s) (action : ClientAction) :
    ∀ r ∈ s.server.responses.take s.responses,
      ∀ e ∈ (s.client.step action).clntPendingMethods.entries, e.1 ≠ r.2.refSid := by
  intro r hr e he heq
  rcases (ClientContext.adds_step s.client action).pending e he with
    he | ⟨call, packet, hcall, hsid⟩
  · exact h.gone r hr e he heq
  · obtain ⟨x, p, hsent, hdrawn⟩ := h.request_of_response (List.mem_of_mem_take hr)
    have hown := h.numbered.calls call e.2.sid (by rw [hcall]; rfl)
    obtain rfl : x = call := by
      rw [← hsid, heq, hdrawn] at hown
      exact Option.some.inj hown
    have hreturned := (h.traced.sent _ (List.mem_of_getElem? hsent)).1
    rw [hcall] at hreturned
    cases hreturned

/-- A step of the client on its own. -/
theorem client (h : Inv nodes draws s) {action : ClientAction} {methods : List MethodClient}
    (hbound : s.client.started < 2 ^ 32) (hkeeps : action.KeepsNodes nodes)
    (hresponse : ∀ resp, action ≠ .response resp)
    (htraced : (s.client.step action).Traced nodes methods) :
    ∃ draws, Inv nodes draws { s with client := s.client.step action, methods := methods } := by
  obtain ⟨draws', hnumbered⟩ := h.numbered.step h.accounted hbound action
  have hadds := ClientContext.adds_step s.client action
  refine ⟨draws', h.accounted.step hkeeps, hnumbered, htraced, h.tracked, ?_,
    h.requests.trans hadds.sent.length_le, h.responses, h.gone_step action,
    fun r hr response houtcome => ?_⟩
  · simp only [take_eq_take_of_le hadds.sent h.requests]
    exact h.served
  · rcases hadds.runs r hr with hr | ⟨reason, hfailed⟩ | ⟨resp, -, hresp, -⟩
    · obtain ⟨a, ha, packet, hsent, hresult⟩ := h.answered r hr response houtcome
      exact ⟨a, ha, packet, getElem?_of_prefix hadds.sent hsent, hresult⟩
    · rw [hfailed] at houtcome
      cases houtcome
    · exact absurd hresp (hresponse resp)

/-- A step of the server on its own. -/
theorem server (h : Inv nodes draws s) {action : ServerAction}
    (haction : ∀ request, action ≠ .receive request) :
    Inv nodes draws { s with server := s.server.step action } := by
  have hprefix := ServerContext.responses_step s.server action
  have htake := take_eq_take_of_le hprefix h.responses
  refine ⟨h.accounted, h.numbered, h.traced, h.tracked.step action, h.served.step h.tracked haction,
    h.requests, h.responses.trans hprefix.length_le, ?_, fun r hr response houtcome => ?_⟩
  · simp only [htake]
    exact h.gone
  · obtain ⟨a, ha, hrest⟩ := h.answered r hr response houtcome
    exact ⟨a, by simpa only [htake] using ha, hrest⟩

theorem deliverRequest (h : Inv nodes draws s) : Inv nodes draws s.deliverRequest := by
  unfold RemoteCalls.deliverRequest
  split
  · exact h
  · next call packet hnext =>
    split_ifs with hready
    · have hlt := (List.getElem?_eq_some_iff.mp hnext).1
      have hprefix := ServerContext.responses_step s.server (.receive packet)
      have htake := take_eq_take_of_le hprefix h.responses
      refine ⟨h.accounted, h.numbered, h.traced, h.tracked.step _, ?_, hlt,
        h.responses.trans hprefix.length_le, ?_, fun r hr response houtcome => ?_⟩
      · have hserved := h.served.receive h.tracked hready.1 hready.2 packet
        rw [List.take_add_one, hnext, List.map_append]
        exact hserved
      · simp only [htake]
        exact h.gone
      · obtain ⟨a, ha, hrest⟩ := h.answered r hr response houtcome
        exact ⟨a, by simpa only [htake] using ha, hrest⟩
    · exact h

/-- The method that waits is the one of the call whose request was answered. -/
theorem deliverResponse (h : Inv nodes draws s) (hbound : s.client.started < 2 ^ 32) :
    ∃ draws, Inv nodes draws s.deliverResponse := by
  unfold RemoteCalls.deliverResponse
  split
  · exact ⟨draws, h⟩
  · next i resp hnext =>
    split_ifs with hready
    · obtain ⟨draws', hnumbered⟩ := h.numbered.step h.accounted hbound (.response resp)
      have hadds := ClientContext.adds_step s.client (.response resp)
      have htake : s.server.responses.take (s.responses + 1) =
          s.server.responses.take s.responses ++ [(i, resp)] := by
        rw [List.take_add_one, hnext]
        rfl
      refine ⟨draws', h.accounted.step trivial, hnumbered,
        h.traced.step h.accounted h.numbered rfl, h.tracked, ?_,
        h.requests.trans hadds.sent.length_le, (List.getElem?_eq_some_iff.mp hnext).1, ?_,
        fun r hr response houtcome => ?_⟩
      · simp only [take_eq_take_of_le hadds.sent h.requests]
        exact h.served
      · simp only [htake]
        intro r hr
        rcases List.mem_append.mp hr with hr | hr
        · exact h.gone_step (.response resp) r hr
        · rw [List.mem_singleton.mp hr]
          have hnone : (s.client.step (.response resp)).clntPendingMethods.find resp.refSid =
              none := by
            unfold ClientContext.step
            simp only [hready.1, Bool.false_eq_true, if_false, ClientContext.act,
              ClientContext.locked, hready.2, if_true]
            unfold ClientContext.completeClientMethod
            split
            · next hnone => exact hnone
            · exact (OrderedMap.find_erase ..).trans (if_pos rfl)
          exact OrderedMap.find_eq_none_iff.mp hnone
      · simp only [Answered, htake]
        rcases hadds.runs r hr with hr | ⟨reason, hfailed⟩ | ⟨_, method, hresp, hfound, hr⟩
        · obtain ⟨a, ha, packet, hsent, hresult⟩ := h.answered r hr response houtcome
          exact ⟨a, List.mem_append_left _ ha, packet, getElem?_of_prefix hadds.sent hsent, hresult⟩
        · rw [hfailed] at houtcome
          cases houtcome
        · cases hresp
          obtain ⟨call, packet, hsent, hdrawn⟩ :=
            h.request_of_response (List.mem_of_getElem? hnext)
          have hwaits := h.numbered.pending _ (OrderedMap.find_eq_some_iff.mp hfound)
          obtain rfl : call = method.closure := Option.some.inj (hdrawn.symm.trans hwaits)
          obtain ⟨hclosure, hresult, hresponse⟩ := MethodClient.completed_of_respond hr houtcome
          refine ⟨(i, resp), List.mem_append_right _ (List.mem_singleton_self _), packet, ?_,
            hresult, hresponse⟩
          rw [hclosure]
          exact getElem?_of_prefix hadds.sent hsent
    · exact ⟨draws, h⟩

/-- One step of the system, while the calls fit in the counter. -/
theorem step (h : Inv nodes draws s) (hbound : s.client.started < 2 ^ 32) {action : RemoteAction}
    (hfits : action.Fits nodes) : ∃ draws, Inv nodes draws (s.step action) := by
  cases action with
  | request => exact ⟨draws, h.deliverRequest⟩
  | response => exact h.deliverResponse hbound
  | server action =>
    cases action with
    | receive request => exact hfits.elim
    | _ => exact ⟨draws, h.server nofun⟩
  | client action =>
    cases action with
    | response resp => exact hfits.elim
    | sendMethod method =>
      refine h.client hbound hfits nofun ?_
      unfold ClientContext.step
      split_ifs
      · exact h.traced
      · exact h.traced.sendMethod h.accounted method
    | _ => exact h.client hbound hfits nofun (h.traced.step h.accounted h.numbered rfl)

end Inv

theorem started_step (s : RemoteCalls) (action : RemoteAction) :
    (s.step action).client.started ≤ s.client.started + if action.isCall then 1 else 0 := by
  cases action with
  | client action =>
    cases action with
    | sendMethod method => exact s.client.started_step (.sendMethod method)
    | _ => exact s.client.started_step _
  | server action => exact Nat.le_add_right _ _
  | request =>
    show s.deliverRequest.client.started ≤ s.client.started + 0
    unfold deliverRequest
    split
    · exact le_rfl
    · split_ifs <;> exact le_rfl
  | response =>
    show s.deliverResponse.client.started ≤ s.client.started + 0
    unfold deliverResponse
    split
    · exact le_rfl
    · split_ifs
      · exact s.client.started_step (.response _)
      · exact le_rfl

theorem run_inv {nodes : Nodes} {draws : List ℕ} {s : RemoteCalls} (h : Inv nodes draws s)
    {actions : List RemoteAction}
    (hcalls : s.client.started + actions.countP RemoteAction.isCall < 2 ^ 32)
    (hfits : ∀ action ∈ actions, action.Fits nodes) :
    ∃ draws, Inv nodes draws (run step actions s) := by
  induction actions generalizing s draws with
  | nil => exact ⟨draws, h⟩
  | cons action actions ih =>
    rw [List.countP_cons] at hcalls
    have hstarted := started_step s action
    obtain ⟨draws', h'⟩ := h.step (by omega) (hfits action List.mem_cons_self)
    have hrest : (s.step action).client.started + actions.countP RemoteAction.isCall < 2 ^ 32 := by
      omega
    exact ih h' hrest fun a ha => hfits a (List.mem_cons_of_mem _ ha)

/-- No call is in progress, and the answer to everything that was sent has come. -/
def Settled (s : RemoteCalls) : Prop :=
  (∀ call < s.client.started, (s.client.calls call).isReturned) ∧
    ∀ i < s.client.sent.length, ∃ r ∈ s.server.responses.take s.responses, r.1 = i

/-- Every call is run at most once, by its own request, and its closure once, with the output of its
own method if it completes. -/
structure Correct (nodes : Nodes) (s : RemoteCalls) : Prop where
  sent : ∀ x ∈ s.client.sent, ∃ m, s.methods[x.1]? = some m ∧ m.Carries nodes x.2
  atMostOnce : (s.client.sent.map Prod.fst).Nodup
  executed : ∀ i < s.server.received, ∃ call packet, s.client.sent[i]? = some (call, packet) ∧
    (s.server.methods i).Matches packet
  closures : ∀ call, s.client.ran call ≤ 1
  completed : ∀ r ∈ s.client.closureRuns, ∀ response, r.outcome = .completed response →
    ∃ i < s.server.received, ∃ packet, s.client.sent[i]? = some (r.closure, packet) ∧
      (s.server.methods i).err = "" ∧ (s.server.methods i).output = some response
  finished : s.Settled → ∀ call < s.client.started, s.client.ran call = 1

theorem output_of_success {m : Method} {result : MethodResult}
    (hresult : m.prepareResponsePacket.result = some result) (hcode : result.code = resultSuccess) :
    m.err = "" ∧ m.output = some m.prepareResponsePacket.response := by
  unfold Method.prepareResponsePacket at hresult ⊢
  split_ifs at hresult with herr
  · cases hresult
    cases hcode
  · rw [if_neg herr]
    cases houtput : m.output with
    | none =>
      rw [houtput] at hresult
      cases hresult
      cases hcode
    | some response => exact ⟨not_not.mp herr, rfl⟩

theorem Inv.correct {nodes : Nodes} {draws : List ℕ} {s : RemoteCalls} (h : Inv nodes draws s) :
    s.Correct nodes where
  sent x hx := (h.traced.sent x hx).2
  atMostOnce := h.traced.once
  executed i hi := by
    obtain ⟨call, packet, hsent, hmatches, -⟩ := h.request_of hi
    exact ⟨call, packet, hsent, hmatches⟩
  closures call := by
    have honce := h.accounted.once call
    split_ifs at honce <;> omega
  completed r hr response houtcome := by
    obtain ⟨a, ha, packet, hsent, ⟨result, hresult, hcode⟩, hresponse⟩ :=
      h.answered r hr response houtcome
    have hmem := List.mem_of_mem_take ha
    have hprepared := (h.served.answered a hmem).1
    rw [hprepared] at hresult hresponse
    obtain ⟨herr, houtput⟩ := output_of_success hresult hcode
    exact ⟨a.1, (h.tracked.sid a hmem).1, packet, hsent, herr, hresponse ▸ houtput⟩
  finished := by
    rintro ⟨hreturned, hanswered⟩ call hcall
    have hnil : s.client.clntPendingMethods.entries = [] := by
      rw [List.eq_nil_iff_forall_not_mem]
      intro e he
      rcases h.traced.waits e he with hregistered | ⟨packet, hsent, hsid⟩
      · by_cases hlt : e.2.closure < s.client.started
        · have hpc := hreturned _ hlt
          cases hcase : s.client.calls e.2.closure <;>
            simp_all [SendPc.isReturned, SendPc.registered?]
        · rw [h.accounted.fresh _ (not_lt.mp hlt)] at hregistered
          cases hregistered
      · obtain ⟨i, hi, hget⟩ := List.getElem_of_mem hsent
        obtain ⟨a, ha, rfl⟩ := hanswered i hi
        obtain ⟨x, p, hx, hdrawn⟩ := h.request_of_response (List.mem_of_mem_take ha)
        rw [List.getElem?_eq_getElem hi, hget] at hx
        obtain ⟨rfl, rfl⟩ := Prod.mk.inj (Option.some.inj hx)
        have hown := h.numbered.sent _ hsent
        refine h.gone a ha e he ?_
        rw [← hsid]
        have hlt := (List.getElem?_eq_some_iff.mp hown).1
        exact (List.getElem?_inj hlt h.numbered.nodup).mp (hown.trans hdrawn.symm)
    have honce := h.accounted.once call
    have hheld : s.client.held call = 0 := by
      have hpc := hreturned call hcall
      unfold ClientContext.held
      cases hcase : s.client.calls call <;> simp_all [SendPc.isReturned, SendPc.method?]
    have hwaiting : s.client.waiting call = 0 := by
      rw [ClientContext.waiting, hnil, List.countP_nil]
    rw [if_pos hcall] at honce
    omega

/-- Whatever the calls, the receive threads, the services and the streams interleave. -/
theorem remote_calls (nodes : Nodes) (actions : List RemoteAction)
    (hcalls : actions.countP RemoteAction.isCall < 2 ^ 32)
    (hfits : ∀ action ∈ actions, action.Fits nodes) :
    (run step actions (init nodes)).Correct nodes := by
  obtain ⟨draws, h⟩ := run_inv (.init nodes) (by simpa [init, ClientContext.init] using hcalls)
    hfits
  exact h.correct

/-- A call that is sent, executed and answered, over one connection to a node. -/
theorem remote_calls_one :
    (run step
      ([.client (.sendMethod ⟨⟨"interface", 1⟩, 0, 0, 0, 0, some [], fun _ => true, 0⟩)] ++
        List.replicate 7 (.client (.advance 0 true)) ++
        [.request,
          .server (.handle (some (.mk "node" ["node"]
            [⟨⟨"interface", 1⟩, 1, fun _ _ => true⟩] []))),
          .server (.complete 0 "" (some [7])), .server (.send 0 true), .response])
      (init fun _ => some ["node"])).Correct fun _ => some ["node"] :=
  remote_calls _ _ (by decide) (by decide)

end RemoteCalls

end Octf.Communication
