import Octf.Communication.ServerContext

/-! What the requests of a peer can do to the server: the runs that it survives are those in
which every request finds its sequence id free and a place in the map, and asks for methods
that its interface has or that lie above the count. -/
namespace Octf.Communication
open Foundation

namespace ServerContext

variable {s : ServerContext} {i : ℕ}

/-- The methods in the map are those in work, each under its sequence id. -/
structure Tracked (s : ServerContext) : Prop where
  fresh : ∀ i, s.received ≤ i → s.phase i = .unknown
  pending : ∀ e ∈ s.srvPendingMethods.entries,
    e.2 < s.received ∧ (s.methods e.2).sequenceId = e.1
  working : ∀ i, s.phase i = .handling ∨ s.phase i = .running →
    ((s.methods i).sequenceId, i) ∈ s.srvPendingMethods.entries
  rx : ∀ i, s.rx = .handling i → s.phase i = .handling
  once : ∀ i, (s.responses.countP fun r => r.1 = i) ≤ if s.phase i = .done then 1 else 0
  sid : ∀ r ∈ s.responses, r.1 < s.received ∧ r.2.refSid = (s.methods r.1).sequenceId

theorem Tracked.init : ServerContext.init.Tracked where
  fresh _ _ := rfl
  pending e he := by cases he
  working i h := by rcases h with h | h <;> cases h
  rx i h := by cases h
  once i := Nat.zero_le _
  sid r hr := by cases hr

/-- A method in work is found under its sequence id. -/
theorem Tracked.find (h : s.Tracked) (hi : s.phase i = .handling ∨ s.phase i = .running) :
    s.srvPendingMethods.find (s.methods i).sequenceId = some i :=
  OrderedMap.find_eq_some_iff.mpr (h.working i hi)

theorem Tracked.received_of (h : s.Tracked) (hi : s.phase i ≠ .unknown) : i < s.received := by
  by_contra hge
  exact hi (h.fresh i (not_lt.mp hge))

@[simp] theorem phase_setPhase (phase : Phase) (x : ℕ) :
    (s.setPhase i phase).phase x = if x = i then phase else s.phase x :=
  Function.update_apply s.phase i phase x

@[simp] theorem methods_setMethod (m : Method) (x : ℕ) :
    (s.setMethod i m).methods x = if x = i then m else s.methods x :=
  Function.update_apply s.methods i m x

namespace Tracked

/-- A method that is not done has no response, whatever becomes of it. -/
theorem once_update (h : s.Tracked) (hi : s.phase i ≠ .done) (phase : Phase) (x : ℕ) :
    (s.responses.countP fun r => r.1 = x) ≤
      if (if x = i then phase else s.phase x) = .done then 1 else 0 := by
  have honce := h.once x
  by_cases hx : x = i
  · rw [hx, if_neg hi] at honce
    rw [hx]
    exact honce.trans (Nat.zero_le _)
  · rwa [if_neg hx]

theorem fails (h : s.Tracked) (fault : Fault) : (s.fails fault).Tracked :=
  ⟨h.fresh, h.pending, h.working, h.rx, h.once, h.sid⟩

/-- A method changes, but for its sequence id. -/
theorem setMethod (h : s.Tracked) {m : Method} (hsid : m.sequenceId = (s.methods i).sequenceId) :
    (s.setMethod i m).Tracked := by
  have hsame : ∀ x, ((s.setMethod i m).methods x).sequenceId = (s.methods x).sequenceId := by
    intro x
    rw [methods_setMethod]
    split_ifs with hx
    · rw [hx, hsid]
    · rfl
  refine ⟨h.fresh, fun e he => ?_, fun x hx => ?_, h.rx, h.once, fun r hr => ?_⟩
  · rw [hsame]
    exact h.pending e he
  · rw [hsame]
    exact h.working x hx
  · rw [hsame]
    exact h.sid r hr

theorem setFailed (h : s.Tracked) (reason : String) :
    (s.setMethod i ((s.methods i).setFailed reason)).Tracked := h.setMethod rfl

/-- The completion of a method in work takes it out of the map. -/
theorem sendResponse_eq (h : s.Tracked) (hi : s.phase i = .handling ∨ s.phase i = .running) :
    s.sendResponse false i =
      ({ s with srvPendingMethods := s.srvPendingMethods.erase (s.methods i).sequenceId } :
        ServerContext).setPhase i .sending := by
  simp only [ServerContext.sendResponse, h.find hi, Bool.false_eq_true, if_false, ne_eq,
    not_true_eq_false]

theorem sendResponse (h : s.Tracked) (hi : s.phase i = .handling ∨ s.phase i = .running)
    (hrx : s.rx ≠ .handling i) : (s.sendResponse false i).Tracked := by
  have hnot : s.phase i ≠ .done := by rcases hi with hi | hi <;> rw [hi] <;> decide
  have hknown : s.phase i ≠ .unknown := by rcases hi with hi | hi <;> rw [hi] <;> decide
  have hlt := h.received_of hknown
  rw [h.sendResponse_eq hi]
  refine ⟨fun x hx => ?_, fun e he => ?_, fun x hx => ?_, fun x hx => ?_, fun x => ?_, h.sid⟩
  · rw [phase_setPhase, if_neg (by rintro rfl; exact absurd hlt (not_lt.mpr hx))]
    exact h.fresh x hx
  · exact h.pending e (OrderedMap.mem_of_mem_removeFirst he)
  · rw [phase_setPhase] at hx
    split_ifs at hx with heq
    · rcases hx with hx | hx <;> cases hx
    · refine OrderedMap.mem_erase_of_ne (h.working x hx) fun hsame => heq ?_
      have hfound := h.find hx
      rw [show (s.methods x).sequenceId = _ from hsame, h.find hi] at hfound
      exact (Option.some.inj hfound).symm
  · rw [phase_setPhase, if_neg (by rintro rfl; exact hrx hx)]
    exact h.rx x hx
  · rw [phase_setPhase]
    exact h.once_update hnot _ x

/-- The receive thread fails the method it handles. -/
theorem failHandled (h : s.Tracked) (hrx : s.rx = .handling i) (reason : String) :
    (s.failHandled reason i).Tracked := by
  have hi := h.rx i hrx
  have hmoved : ({ s with rx := .responding i } : ServerContext).Tracked :=
    ⟨h.fresh, h.pending, h.working, fun x hx => (by cases hx), h.once, h.sid⟩
  exact (hmoved.setFailed reason).sendResponse (Or.inl hi)
    (by exact RxPc.noConfusion)

theorem handleMethod (h : s.Tracked) (hrx : s.rx = .handling i) (owner : Option ServerNode) :
    (s.handleMethod owner i).Tracked := by
  have hi := h.rx i hrx
  unfold ServerContext.handleMethod
  split
  · exact h.failHandled hrx _
  · split
    · exact h.failHandled hrx _
    · split
      · exact h.failHandled hrx _
      · exact h.fails _
      · split_ifs
        · refine ⟨fun x hx => ?_, h.pending, fun x hx => ?_, fun x hx => (by cases hx),
            fun x => ?_, h.sid⟩
          · rw [phase_setPhase, if_neg]
            · exact h.fresh x hx
            · rintro rfl
              exact absurd (h.received_of (by rw [hi]; decide)) (not_lt.mpr hx)
          · rw [phase_setPhase] at hx
            split_ifs at hx with heq
            · rw [heq]
              exact h.working i (Or.inl hi)
            · exact h.working x hx
          · rw [phase_setPhase]
            exact h.once_update (by rw [hi]; decide) _ x
        · exact h.failHandled hrx _

/-- A new method, under a number that nothing refers to. -/
theorem receive (h : s.Tracked) (m : Method) :
    (({ s with received := s.received + 1 } : ServerContext).setMethod s.received m).Tracked := by
  refine ⟨fun x hx => h.fresh x (Nat.le_of_succ_le hx), fun e he => ?_, fun x hx => ?_,
    h.rx, h.once,
    fun r hr => ?_⟩
  · obtain ⟨hlt, hsid⟩ := h.pending e he
    rw [methods_setMethod, if_neg hlt.ne]
    exact ⟨hlt.trans (Nat.lt_succ_self _), hsid⟩
  · have hne : x ≠ s.received := by
      rintro rfl
      have hunknown := h.fresh s.received le_rfl
      rcases hx with hx | hx <;> rw [show s.phase s.received = _ from hx] at hunknown <;>
        cases hunknown
    rw [methods_setMethod, if_neg hne]
    exact h.working x hx
  · obtain ⟨hlt, hsid⟩ := h.sid r hr
    rw [methods_setMethod, if_neg hlt.ne]
    exact ⟨hlt.trans (Nat.lt_succ_self _), hsid⟩

theorem register (h : s.Tracked) (hi : i < s.received) (hphase : s.phase i = .unknown) :
    (s.register i).Tracked := by
  unfold ServerContext.register
  dsimp only
  split_ifs with hused hfull
  · exact (h.setFailed _).fails .relock
  · exact (h.setFailed _).fails .relock
  · have hperm := OrderedMap.perm_emplace (v := i) (not_not.mp hused)
    refine ⟨fun x hx => ?_, fun e he => ?_, fun x hx => ?_, fun x hx => ?_, fun x => ?_, h.sid⟩
    · rw [phase_setPhase, if_neg (by rintro rfl; exact absurd hi (not_lt.mpr hx))]
      exact h.fresh x hx
    · rcases List.mem_cons.mp (hperm.subset he) with rfl | he
      · exact ⟨hi, rfl⟩
      · exact h.pending e he
    · rw [phase_setPhase] at hx
      refine hperm.symm.subset ?_
      split_ifs at hx with heq
      · rw [heq]
        exact List.mem_cons_self
      · exact List.mem_cons_of_mem _ (h.working x hx)
    · cases hx
      rw [phase_setPhase, if_pos rfl]
    · rw [phase_setPhase]
      exact h.once_update (by rw [hphase]; decide) _ x

theorem handleServerMethod (h : s.Tracked) (request : PacketMethodRequest) :
    (s.handleServerMethod request).Tracked := by
  unfold ServerContext.handleServerMethod
  split
  · exact h.fails _
  · exact ⟨h.fresh, h.pending, h.working, fun x hx => (by cases hx), h.once, h.sid⟩
  · exact (h.receive _).register (Nat.lt_succ_self _) (h.fresh _ le_rfl)

theorem sendDataPacket (h : s.Tracked) (hi : s.phase i = .sending) (ok : Bool) :
    (s.sendDataPacket i ok).Tracked := by
  unfold ServerContext.sendDataPacket
  have hlt := h.received_of (by rw [hi]; decide : s.phase i ≠ .unknown)
  refine ⟨fun x hx => ?_, h.pending, fun x hx => ?_, fun x hx => ?_, fun x => ?_, fun r hr => ?_⟩
  · rw [phase_setPhase, if_neg (by rintro rfl; exact absurd hlt (not_lt.mpr hx))]
    exact h.fresh x hx
  · rw [phase_setPhase] at hx
    by_cases heq : x = i
    · rw [if_pos heq] at hx
      rcases hx with hx | hx <;> cases hx
    · rw [if_neg heq] at hx
      exact h.working x hx
  · have hx' : s.rx = .handling x := by
      change (if s.rx = .responding i then RxPc.receiving else s.rx) = .handling x at hx
      split_ifs at hx
      exact hx
    have hphase := h.rx x hx'
    rw [phase_setPhase, if_neg (by rintro rfl; rw [hi] at hphase; cases hphase)]
    exact hphase
  · have honce := h.once x
    rw [phase_setPhase]
    have hcount : ((if ok then s.responses ++ [(i, (s.methods i).prepareResponsePacket)]
        else s.responses).countP fun r => r.1 = x) ≤
        (s.responses.countP fun r => r.1 = x) + if x = i then 1 else 0 := by
      cases ok
      · exact Nat.le_add_right _ _
      · rw [if_pos rfl, List.countP_append, List.countP_singleton]
        simp only [decide_eq_true_eq, eq_comm (a := i), le_refl]
    refine hcount.trans ?_
    by_cases hx : x = i
    · rw [hx, hi, if_neg (by decide)] at honce
      rw [if_pos hx, if_pos hx, if_pos rfl, hx]
      omega
    · rw [if_neg hx, if_neg hx]
      exact honce
  · change r ∈ (if ok then _ else _) at hr
    split_ifs at hr
    · rcases List.mem_append.mp hr with hr | hr
      · exact h.sid r hr
      · rw [List.mem_singleton.mp hr]
        exact ⟨hlt, Method.prepareResponsePacket_refSid _⟩
    · exact h.sid r hr

theorem step (h : s.Tracked) (action : ServerAction) : (s.step action).Tracked := by
  unfold ServerContext.step
  split_ifs
  · cases action with
    | receive request =>
      simp only [act]
      split_ifs
      · exact h.handleServerMethod request
      · exact h
    | handle owner =>
      simp only [act]
      split
      · next i hrx => exact h.handleMethod hrx owner
      · exact h
    | complete i err output =>
      simp only [act]
      split_ifs with hi
      · refine (h.setMethod ?_).sendResponse (Or.inr hi) fun hrx => ?_
        · rfl
        · rw [h.rx i hrx] at hi
          cases hi
      · exact h
    | send i ok =>
      simp only [act]
      split_ifs with hi
      · exact h.sendDataPacket hi ok
      · exact h
    | disconnect =>
      simp only [act]
      split_ifs
      · exact ⟨h.fresh, h.pending, h.working, fun x hx => (by cases hx), h.once, h.sid⟩
      · exact h
  · exact h

end Tracked

/-! ### What goes wrong, and when -/

/-- The request at hand and the method it leads to are none of those the server fails on. -/
def Sound (action : ServerAction) (s : ServerContext) : Prop :=
  match action with
  | .receive request => s.rx = .receiving →
    (∀ id ∈ request.path, isLongKeyValid id) ∧ (request.path ≠ [] →
      s.srvPendingMethods.find request.sid = none ∧
        s.srvPendingMethods.entries.length ≤ maxPendingMethods)
  | .handle owner => ∀ i node interface, s.rx = .handling i → owner = some node →
    node.target (s.methods i) = .ok interface →
      0 ≤ (s.methods i).methodID ∧ (s.methods i).methodID ≠ interface.methodCount
  | _ => True

/-- The server is well after a run, and what it sent are answers, at most one to a request. -/
structure Survives (s : ServerContext) : Prop where
  noRelock : s.fault ≠ some .relock
  noAbort : s.fault ≠ some .abort
  inRange : s.fault ≠ some .methodIndex
  once : ∀ i, (s.responses.countP fun r => r.1 = i) ≤ 1
  sid : ∀ r ∈ s.responses, r.1 < s.received ∧ r.2.refSid = (s.methods r.1).sequenceId

theorem Tracked.survives_fault_iff (h : s.Tracked) : s.Survives ↔ s.fault = none := by
  constructor
  · rintro ⟨hrelock, habort, hindex, -, -⟩
    cases hfault : s.fault with
    | none => rfl
    | some fault => cases fault <;> simp_all
  · intro hfault
    refine ⟨by simp [hfault], by simp [hfault], by simp [hfault], fun i => ?_, h.sid⟩
    have honce := h.once i
    split_ifs at honce <;> omega

theorem fault_sendResponse
    (hfound : s.srvPendingMethods.find (s.methods i).sequenceId = some i) :
    (s.sendResponse false i).fault = s.fault := by
  simp only [sendResponse, hfound, Bool.false_eq_true, if_false, ne_eq, not_true_eq_false]
  rfl

theorem Tracked.fault_failHandled (h : s.Tracked) (hrx : s.rx = .handling i) (reason : String) :
    (s.failHandled reason i).fault = s.fault := by
  refine fault_sendResponse ?_
  rw [methods_setMethod, if_pos rfl]
  exact h.find (Or.inl (h.rx i hrx))

/-- A look-up is out of range for the two kinds of ids that the check lets through. -/
theorem getMethodDescriptor_outOfRange {m : Method} {interface : Interface} :
    getMethodDescriptor m interface = .outOfRange ↔
      ¬ (0 ≤ m.methodID ∧ m.methodID ≠ interface.methodCount) := by
  unfold getMethodDescriptor
  split_ifs with h₁ h₂
  · simp only [false_iff]
    omega
  · simp only [false_iff]
    omega
  · simp only [true_iff]
    omega

/-- The handler goes wrong on the index alone. -/
theorem fault_handleMethod (h : s.Tracked) (hfault : s.fault = none) (hrx : s.rx = .handling i)
    (owner : Option ServerNode) :
    (s.handleMethod owner i).fault = none ↔ ∀ node interface, owner = some node →
      node.target (s.methods i) = .ok interface →
        getMethodDescriptor (s.methods i) interface ≠ .outOfRange := by
  have hfail : ∀ reason, (s.failHandled reason i).fault = none := fun reason =>
    (h.fault_failHandled hrx reason).trans hfault
  unfold handleMethod
  split
  · exact ⟨fun _ _ _ hnone => (by cases hnone), fun _ => hfail _⟩
  · next node =>
    split
    · next reason htarget =>
      refine ⟨fun _ node' interface hnode hok => ?_, fun _ => hfail _⟩
      cases hnode
      rw [htarget] at hok
      cases hok
    · next interface htarget =>
      have honly : (∀ node' interface', some node = some node' →
          node'.target (s.methods i) = .ok interface' →
            getMethodDescriptor (s.methods i) interface' ≠ .outOfRange) ↔
          getMethodDescriptor (s.methods i) interface ≠ .outOfRange := by
        refine ⟨fun hall => hall node interface rfl htarget,
          fun hne node' interface' hnode hok => ?_⟩
        cases hnode
        rw [htarget] at hok
        cases hok
        exact hne
      rw [honly]
      split
      · next hlookup => exact ⟨fun _ => by rw [hlookup]; decide, fun _ => hfail _⟩
      · next hlookup =>
        refine ⟨fun hnone => (by cases hnone), fun hne => absurd hlookup hne⟩
      · next hlookup =>
        refine ⟨fun _ => by rw [hlookup]; decide, fun _ => ?_⟩
        split_ifs
        · exact hfault
        · exact hfail _

theorem fault_fail (reason : String) : (s.fail true reason i).fault = some .relock := rfl

theorem fault_register (hfault : s.fault = none) :
    (s.register i).fault = none ↔
      s.srvPendingMethods.find (s.methods i).sequenceId = none ∧
        s.srvPendingMethods.entries.length ≤ maxPendingMethods := by
  unfold register
  dsimp only
  split_ifs with hused hfull
  · simp [fault_fail, hused]
  · simp [fault_fail, hfull]
  · exact ⟨fun _ => ⟨not_not.mp hused, not_lt.mp hfull⟩, fun _ => hfault⟩

theorem fault_handleServerMethod (hfault : s.fault = none) (request : PacketMethodRequest) :
    (s.handleServerMethod request).fault = none ↔
      (∀ id ∈ request.path, isLongKeyValid id) ∧ (request.path ≠ [] →
        s.srvPendingMethods.find request.sid = none ∧
          s.srvPendingMethods.entries.length ≤ maxPendingMethods) := by
  unfold handleServerMethod
  rw [prepareMethod_eq]
  by_cases hvalid : ∀ id ∈ request.path, isLongKeyValid id
  · rw [if_pos hvalid]
    by_cases hpath : request.path = []
    · rw [if_pos hpath]
      exact ⟨fun _ => ⟨hvalid, fun hne => absurd hpath hne⟩, fun _ => hfault⟩
    · rw [if_neg hpath]
      have hregister := fault_register (i := s.received)
        (s := ({ s with received := s.received + 1 } : ServerContext).setMethod s.received
          ⟨request.path, request.interface, request.mid, request.sid, request.request, "", none⟩)
        hfault
      rw [methods_setMethod, if_pos rfl] at hregister
      exact hregister.trans ⟨fun h => ⟨hvalid, fun _ => h⟩, fun h => h.2 hpath⟩
  · rw [if_neg hvalid]
    exact ⟨fun h => (by cases h), fun h => absurd h.1 hvalid⟩

/-- A step that starts well ends well exactly when what it meets is sound. -/
theorem fault_step (h : s.Tracked) (hfault : s.fault = none) (action : ServerAction) :
    (s.step action).fault = none ↔ Sound action s := by
  rw [step, if_pos hfault]
  cases action with
  | receive request =>
    simp only [act, Sound]
    split_ifs with hrx
    · rw [fault_handleServerMethod hfault]
      exact ⟨fun h _ => h, fun h => h hrx⟩
    · exact ⟨fun _ h => absurd h hrx, fun _ => hfault⟩
  | handle owner =>
    simp only [act, Sound]
    split
    · next i hrx =>
      rw [fault_handleMethod h hfault hrx]
      constructor
      · intro hall i' node interface hrx' hnode htarget
        cases hrx.symm.trans hrx'
        have hne := hall node interface hnode htarget
        rwa [Ne, getMethodDescriptor_outOfRange, not_not] at hne
      · intro hall node interface hnode htarget
        rw [Ne, getMethodDescriptor_outOfRange, not_not]
        exact hall i node interface hrx hnode htarget
    · next hnot => exact ⟨fun _ i _ _ hrx => absurd hrx (hnot i), fun _ => hfault⟩
  | complete i err output =>
    simp only [act, Sound, iff_true]
    split_ifs with hi
    · refine (fault_sendResponse ?_).trans hfault
      rw [methods_setMethod, if_pos rfl]
      exact h.find (Or.inr hi)
    · exact hfault
  | send i ok =>
    simp only [act, Sound, iff_true]
    split_ifs
    · exact hfault
    · exact hfault
  | disconnect =>
    simp only [act, Sound, iff_true]
    split_ifs
    · exact hfault
    · exact hfault

/-- Two requests with one sequence id, the second while the first one runs. -/
def repeatedSid : List ServerAction :=
  let request : PacketMethodRequest := ⟨["node"], ⟨"interface", 1⟩, 0, 7, []⟩
  let owner : ServerNode := .mk "node" ["node"] [⟨⟨"interface", 1⟩, 1, fun _ _ => true⟩] []
  [.receive request, .handle (some owner), .receive request]

end ServerContext

end Octf.Communication
