import Octf.Communication.ServerSafety

/-! What a server makes of the requests it has received: one method for each, in their order, and at
most one response for each method. -/
namespace Octf.Communication
open Foundation

/-- The method that a request asks for. -/
structure Method.Matches (m : Method) (request : PacketMethodRequest) : Prop where
  path : m.path = request.path
  interfaceId : m.interfaceId = request.interface
  methodID : m.methodID = request.mid
  sequenceId : m.sequenceId = request.sid
  payload : m.requestPayload = request.request

theorem matches_of_prepareMethod {request : PacketMethodRequest} {m : Method}
    (h : prepareMethod request = .ready m) : m.Matches request := by
  rw [prepareMethod_eq] at h
  split_ifs at h
  cases h
  exact ⟨rfl, rfl, rfl, rfl, rfl⟩

namespace ServerContext

variable {s : ServerContext} {i : ℕ} {requests : List PacketMethodRequest}

/-- The methods are those of the first requests, and of all of them while requests are received. -/
structure Served (requests : List PacketMethodRequest) (s : ServerContext) : Prop where
  received : s.received ≤ requests.length
  inStep : s.fault = none → s.rx ≠ .stopped → s.received = requests.length
  methods : ∀ i < s.received, ∃ request, requests[i]? = some request ∧
    (s.methods i).Matches request
  answered : ∀ r ∈ s.responses, r.2 = (s.methods r.1).prepareResponsePacket ∧
    s.phase r.1 = .done

namespace Served

theorem init : ServerContext.init.Served [] where
  received := le_rfl
  inStep _ _ := rfl
  methods i hi := absurd hi (Nat.not_lt_zero i)
  answered r hr := by cases hr

/-- A method that is not done changes, but for what was requested. -/
theorem setMethod (h : s.Served requests) (hi : s.phase i ≠ .done) {m : Method}
    (hm : ∀ request, (s.methods i).Matches request → m.Matches request) :
    (s.setMethod i m).Served requests := by
  refine ⟨h.received, h.inStep, fun x hx => ?_, fun r hr => ?_⟩
  · obtain ⟨request, hrequest, hmatches⟩ := h.methods x hx
    refine ⟨request, hrequest, ?_⟩
    rw [methods_setMethod]
    split_ifs with heq
    · exact hm request (heq ▸ hmatches)
    · exact hmatches
  · obtain ⟨hresp, hdone⟩ := h.answered r hr
    refine ⟨?_, hdone⟩
    rw [methods_setMethod, if_neg]
    · exact hresp
    · intro heq
      rw [heq] at hdone
      exact hi hdone

/-- A method goes on to a phase, and the receive thread to another place. -/
theorem setPhase (h : s.Served requests) (hi : s.phase i ≠ .done) {phase : Phase} {rx : RxPc}
    {srvPendingMethods : OrderedMap ℕ} (hrx : rx ≠ .stopped → s.rx ≠ .stopped) :
    (({ s with srvPendingMethods := srvPendingMethods, rx := rx } : ServerContext).setPhase i
      phase).Served requests := by
  refine ⟨h.received, fun hfault hne => h.inStep hfault (hrx hne), h.methods, fun r hr => ?_⟩
  obtain ⟨hresp, hdone⟩ := h.answered r hr
  refine ⟨hresp, ?_⟩
  rw [phase_setPhase, if_neg]
  · exact hdone
  · intro heq
    rw [heq] at hdone
    exact hi hdone

theorem fails (h : s.Served requests) (fault : Fault) : (s.fails fault).Served requests :=
  ⟨h.received, nofun, h.methods, h.answered⟩

theorem setFailed (h : s.Served requests) (hi : s.phase i ≠ .done) (reason : String) :
    (s.setMethod i ((s.methods i).setFailed reason)).Served requests :=
  h.setMethod hi fun _ hm => ⟨hm.path, hm.interfaceId, hm.methodID, hm.sequenceId, hm.payload⟩

theorem sendResponse (h : s.Served requests) (hi : s.phase i ≠ .done) (locked : Bool) :
    (s.sendResponse locked i).Served requests := by
  unfold ServerContext.sendResponse
  split_ifs
  · exact h.fails _
  · split
    · exact h
    · split_ifs
      · exact h.fails _
      · exact h.setPhase hi id

theorem failHandled (h : s.Served requests) (hi : s.phase i ≠ .done) (hrx : s.rx ≠ .stopped)
    (reason : String) : (s.failHandled reason i).Served requests := by
  have hmoved : ({ s with rx := .responding i } : ServerContext).Served requests :=
    ⟨h.received, fun hfault _ => h.inStep hfault hrx, h.methods, h.answered⟩
  exact (hmoved.setFailed hi reason).sendResponse hi false

theorem handleMethod (h : s.Served requests) (hi : s.phase i ≠ .done) (hrx : s.rx ≠ .stopped)
    (owner : Option ServerNode) : (s.handleMethod owner i).Served requests := by
  unfold ServerContext.handleMethod
  split
  · exact h.failHandled hi hrx _
  · split
    · exact h.failHandled hi hrx _
    · split
      · exact h.failHandled hi hrx _
      · exact h.fails _
      · split_ifs
        · exact h.setPhase hi fun _ => hrx
        · exact h.failHandled hi hrx _

theorem sendDataPacket (h : s.Served requests) (i : ℕ) (ok : Bool) :
    (s.sendDataPacket i ok).Served requests := by
  unfold ServerContext.sendDataPacket
  refine ⟨h.received, fun hfault hne => h.inStep hfault fun hstopped => hne ?_, h.methods,
    fun r hr => ?_⟩
  · change (if s.rx = .responding i then RxPc.receiving else s.rx) = .stopped
    rw [hstopped, if_neg (by simp)]
  · have hold : ∀ r ∈ s.responses, r.2 = (s.methods r.1).prepareResponsePacket ∧
        (if r.1 = i then Phase.done else s.phase r.1) = .done := by
      intro r hr
      obtain ⟨hresp, hdone⟩ := h.answered r hr
      refine ⟨hresp, ?_⟩
      split_ifs
      · rfl
      · exact hdone
    rw [phase_setPhase]
    change r ∈ (if ok then _ else _) at hr
    split_ifs at hr
    · rcases List.mem_append.mp hr with hr | hr
      · exact hold r hr
      · rw [List.mem_singleton.mp hr, if_pos rfl]
        exact ⟨rfl, rfl⟩
    · exact hold r hr

/-- Whatever is done with the methods that were received. -/
theorem step (h : s.Served requests) (htracked : s.Tracked) {action : ServerAction}
    (haction : ∀ request, action ≠ .receive request) : (s.step action).Served requests := by
  unfold ServerContext.step
  split_ifs
  · cases action with
    | receive request => exact absurd rfl (haction request)
    | handle owner =>
      simp only [act]
      split
      · next i hrx =>
        have hphase := htracked.rx i hrx
        exact h.handleMethod (by rw [hphase]; decide) (by simp [hrx]) owner
      · exact h
    | complete i err output =>
      simp only [act]
      split_ifs with hi
      · have hdone : s.phase i ≠ .done := by rw [hi]; decide
        refine (h.setMethod hdone fun _ hm => ?_).sendResponse hdone false
        exact ⟨hm.path, hm.interfaceId, hm.methodID, hm.sequenceId, hm.payload⟩
      · exact h
    | send i ok =>
      simp only [act]
      split_ifs with hi
      · exact h.sendDataPacket i ok
      · exact h
    | disconnect =>
      simp only [act]
      split_ifs
      · exact ⟨h.received, fun _ hne => absurd rfl hne, h.methods, h.answered⟩
      · exact h
  · exact h

/-- A request is received. -/
theorem receive (h : s.Served requests) (htracked : s.Tracked) (hfault : s.fault = none)
    (hrx : s.rx = .receiving) (request : PacketMethodRequest) :
    (s.step (.receive request)).Served (requests ++ [request]) := by
  have hinStep := h.inStep hfault (by simp [hrx])
  have hold : ∀ i < s.received, ∃ r, (requests ++ [request])[i]? = some r ∧
      (s.methods i).Matches r := by
    intro i hi
    obtain ⟨r, hr, hmatches⟩ := h.methods i hi
    refine ⟨r, ?_, hmatches⟩
    rw [List.getElem?_append_left (List.getElem?_eq_some_iff.mp hr).1, hr]
  have hlen : s.received ≤ (requests ++ [request]).length := by simp [hinStep]
  unfold ServerContext.step
  rw [if_pos hfault]
  simp only [act, if_pos hrx]
  unfold handleServerMethod
  split
  · exact ⟨hlen, fun hnone => absurd hnone (Option.some_ne_none _), hold, h.answered⟩
  · exact ⟨hlen, fun _ hne => absurd rfl hne, hold, h.answered⟩
  · next m hready =>
    have hfresh := htracked.fresh s.received le_rfl
    have hnew : (({ s with received := s.received + 1 } : ServerContext).setMethod s.received
        m).Served (requests ++ [request]) := by
      refine ⟨by simp [ServerContext.setMethod, hinStep], fun _ _ => by
        simp [ServerContext.setMethod, hinStep], fun i hi => ?_, fun r hr => ?_⟩
      · rw [methods_setMethod]
        split_ifs with heq
        · refine ⟨request, ?_, matches_of_prepareMethod hready⟩
          rw [heq, hinStep, List.getElem?_concat_length]
        · exact hold i (lt_of_le_of_ne (Nat.le_of_lt_succ hi) heq)
      · obtain ⟨hresp, hdone⟩ := h.answered r hr
        refine ⟨?_, hdone⟩
        rw [methods_setMethod, if_neg]
        · exact hresp
        · exact (htracked.sid r hr).1.ne
    have hphase : s.phase s.received ≠ .done := by rw [hfresh]; decide
    unfold ServerContext.register
    simp only
    split_ifs
    · exact (hnew.setFailed hphase _).sendResponse hphase true
    · exact (hnew.setFailed hphase _).sendResponse hphase true
    · exact hnew.setPhase hphase fun _ => by
        change s.rx ≠ .stopped
        simp [hrx]

end Served

/-- A response that was sent stays sent. -/
theorem responses_step (s : ServerContext) (action : ServerAction) :
    s.responses <+: (s.step action).responses := by
  have hsendResponse : ∀ (t : ServerContext) (locked : Bool) (i : ℕ),
      (t.sendResponse locked i).responses = t.responses := by
    intro t locked i
    unfold ServerContext.sendResponse
    split_ifs
    · rfl
    · split
      · rfl
      · split_ifs <;> rfl
  have hfailHandled : ∀ reason i, (s.failHandled reason i).responses = s.responses :=
    fun reason i => hsendResponse _ false i
  unfold ServerContext.step
  split_ifs
  · cases action with
    | receive request =>
      simp only [act]
      split_ifs
      · unfold handleServerMethod
        split
        · exact List.prefix_rfl
        · exact List.prefix_rfl
        · unfold ServerContext.register
          simp only
          split_ifs <;> exact List.prefix_rfl
      · exact List.prefix_rfl
    | handle owner =>
      simp only [act]
      split
      · unfold ServerContext.handleMethod
        split
        · exact (hfailHandled _ _).symm ▸ List.prefix_rfl
        · split
          · exact (hfailHandled _ _).symm ▸ List.prefix_rfl
          · split
            · exact (hfailHandled _ _).symm ▸ List.prefix_rfl
            · exact List.prefix_rfl
            · split_ifs
              · exact List.prefix_rfl
              · exact (hfailHandled _ _).symm ▸ List.prefix_rfl
      · exact List.prefix_rfl
    | complete i err output =>
      simp only [act]
      split_ifs
      · exact (hsendResponse _ false i).symm ▸ List.prefix_rfl
      · exact List.prefix_rfl
    | send i ok =>
      simp only [act]
      split_ifs
      · change _ <+: (if ok then _ else _)
        split_ifs
        · exact List.prefix_append ..
        · exact List.prefix_rfl
      · exact List.prefix_rfl
    | disconnect =>
      simp only [act]
      split_ifs <;> exact List.prefix_rfl
  · exact List.prefix_rfl

end ServerContext

end Octf.Communication
