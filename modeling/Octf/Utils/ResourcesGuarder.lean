import Octf.Foundation.Run
import Mathlib.Data.Finset.Card

/-! The guarders of shared resources and their controller, which counts the clients. A step is what
a thread does while it has the mutex of the controller, with what it does alone before and
behind. -/
namespace Octf.Utils.ResourcesGuarder
open Foundation

/-- Where the thread is that uses a guarder. -/
inductive Pc where
  /-- between two calls -/
  | idle
  /-- at the begin of `Controller::lock` -/
  | enter
  /-- in front of `isLimit`, with the mutex -/
  | check
  /-- between two checks, without the mutex -/
  | sleep
  deriving DecidableEq

structure Guarder where
  exists' : Bool
  /-- `m_locked` -/
  locked : Bool
  pc : Pc

structure Controller (G : Type) where
  /-- the thread that has `m_mutex`, between two steps -/
  mutex : Option G
  /-- `m_clients` -/
  clients : ℕ
  guarder : G → Guarder
  /-- an unlock has thrown, since there was no client to count down -/
  unlockError : Bool
  /-- the guarders whose `lock` has returned, and that have not been unlocked or destroyed since -/
  holders : Finset G

/-- An action of a thread. The check comes with what its parts answer or throw. -/
inductive Action (G : Type) where
  | create (g : G)
  | lock (g : G)
  /-- the mutex is given to a thread that waits for it in `Controller::lock` -/
  | acquire (g : G)
  | check (g : G) (memoryLimit openFilesLimit : Except String Bool)
  | unlock (g : G)
  | destroy (g : G)

variable {G : Type}

def init : Controller G := ⟨none, 0, fun _ => ⟨false, false, .idle⟩, false, ∅⟩

/-- `isLimit` -/
def isLimit (memoryLimit openFilesLimit : Except String Bool) : Except String Bool := do
  if ← memoryLimit then return true
  openFilesLimit

namespace Controller

variable [DecidableEq G]

def setGuarder (g : G) (guarder : Guarder) (s : Controller G) : Controller G :=
  { s with guarder := Function.update s.guarder g guarder }

def goTo (g : G) (pc : Pc) (s : Controller G) : Controller G :=
  s.setGuarder g { s.guarder g with pc }

/-- `m_clients++`; then `lock` returns. -/
def enter (g : G) (s : Controller G) : Controller G :=
  { s.goTo g .idle with mutex := none, clients := s.clients + 1, holders := insert g s.holders }

/-- `Controller::lock`, once the mutex is there. -/
def acquire (g : G) (s : Controller G) : Controller G :=
  if s.clients = 0 then s.enter g else { s.goTo g .check with mutex := some g }

/-- The answer of `isLimit`. An exception leaves `lock`, and `m_locked` stays. -/
def check (g : G) (limit : Except String Bool) (s : Controller G) : Controller G :=
  match limit with
  | .ok true => { s.goTo g .sleep with mutex := none }
  | .ok false => s.enter g
  | .error _ => { s.goTo g .idle with mutex := none }

/-- `Controller::unlock`, and what the guarder becomes; an exception leaves the guarder as it is. -/
def unlock (g : G) (after : Guarder) (s : Controller G) : Controller G :=
  if s.clients = 0 then { s with unlockError := true }
  else { s.setGuarder g after with clients := s.clients - 1, holders := s.holders.erase g }

/-- A thread is at the begin of a call of the guarder. -/
def Idle (g : G) (s : Controller G) : Prop :=
  (s.guarder g).exists' = true ∧ (s.guarder g).pc = .idle

/-- It counts the guarder down, which needs the mutex. -/
def Releases (g : G) (s : Controller G) : Prop :=
  s.Idle g ∧ (s.guarder g).locked = true ∧ s.mutex = none

instance (g : G) (s : Controller G) : Decidable (s.Idle g) := inferInstanceAs (Decidable (_ ∧ _))

instance (g : G) (s : Controller G) :
    Decidable (s.Releases g) := inferInstanceAs (Decidable (_ ∧ _))

def step (action : Action G) (s : Controller G) : Controller G :=
  match action with
  | .create g =>
    if (s.guarder g).exists' = false then s.setGuarder g ⟨true, false, .idle⟩ else s
  | .lock g =>
    -- a guarder that is locked already throws
    if s.Idle g ∧ (s.guarder g).locked = false then s.setGuarder g ⟨true, true, .enter⟩ else s
  | .acquire g =>
    if s.mutex = none ∧ ((s.guarder g).pc = .enter ∨ (s.guarder g).pc = .sleep) then s.acquire g
    else s
  | .check g memoryLimit openFilesLimit =>
    if (s.guarder g).pc = .check then s.check g (isLimit memoryLimit openFilesLimit) else s
  | .unlock g =>
    -- a guarder that is not locked throws
    if s.Releases g then s.unlock g ⟨true, false, .idle⟩ else s
  | .destroy g =>
    if s.Releases g then s.unlock g ⟨false, false, .idle⟩
    else if s.Idle g ∧ (s.guarder g).locked = false then s.setGuarder g ⟨false, false, .idle⟩
    else s

/-- The clients are the guarders that have locked the resources, and no unlock has thrown. -/
def Counted (s : Controller G) : Prop := s.clients = s.holders.card ∧ s.unlockError = false

/-- A guarder that is counted down has locked the resources: its last call of `lock` has not
thrown. -/
def ReleasesHeld : Action G → Controller G → Prop
  | .unlock g, s | .destroy g, s => s.Releases g → g ∈ s.holders
  | _, _ => True

/-- The clients are between two calls with `m_locked` set, which is set also inside `lock`. -/
structure Holding (s : Controller G) : Prop where
  counted : s.Counted
  idle : ∀ g ∈ s.holders, s.Idle g
  locked : ∀ g ∈ s.holders, (s.guarder g).locked = true
  calling : ∀ g, (s.guarder g).pc ≠ .idle →
    (s.guarder g).exists' = true ∧ (s.guarder g).locked = true

namespace Holding

variable {s s' : Controller G} {g : G} {guarder : Guarder}

omit [DecidableEq G] in
theorem init : (init : Controller G).Holding where
  counted := ⟨rfl, rfl⟩
  idle g hg := absurd hg (Finset.notMem_empty g)
  locked g hg := absurd hg (Finset.notMem_empty g)
  calling _ hpc := absurd rfl hpc

omit [DecidableEq G] in
/-- Whoever is inside a call, or not locked, or not there, is no client. -/
theorem notMem (h : s.Holding) (hg : ¬ (s.Idle g ∧ (s.guarder g).locked = true)) : g ∉ s.holders :=
  fun hmem => hg ⟨h.idle g hmem, h.locked g hmem⟩

/-- A step of one guarder, for what it does to the clients. -/
theorem of_guarder (h : s.Holding) (hguarder : s'.guarder = Function.update s.guarder g guarder)
    (hcounted : s'.Counted) (hholders : ∀ x ∈ s'.holders, x ≠ g → x ∈ s.holders)
    (hself : g ∈ s'.holders →
      guarder.exists' = true ∧ guarder.pc = .idle ∧ guarder.locked = true)
    (hcalling : guarder.pc ≠ .idle → guarder.exists' = true ∧ guarder.locked = true) :
    s'.Holding := by
  refine ⟨hcounted, fun x hx => ?_, fun x hx => ?_, fun x hx => ?_⟩
  · by_cases hxg : x = g
    · subst hxg
      rw [Idle, hguarder, Function.update_self]
      exact ⟨(hself hx).1, (hself hx).2.1⟩
    · rw [Idle, hguarder, Function.update_of_ne hxg]
      exact h.idle x (hholders x hx hxg)
  · by_cases hxg : x = g
    · subst hxg
      rw [hguarder, Function.update_self]
      exact (hself hx).2.2
    · rw [hguarder, Function.update_of_ne hxg]
      exact h.locked x (hholders x hx hxg)
  · by_cases hxg : x = g
    · subst hxg
      rw [hguarder, Function.update_self] at hx ⊢
      exact hcalling hx
    · rw [hguarder, Function.update_of_ne hxg] at hx ⊢
      exact h.calling x hx

/-- A guarder that is no client moves and stays none. -/
theorem aside (h : s.Holding) (hg : g ∉ s.holders)
    (hguarder : s'.guarder = Function.update s.guarder g guarder)
    (hclients : s'.clients = s.clients)
    (herror : s'.unlockError = s.unlockError) (hholders : s'.holders = s.holders)
    (hcalling : guarder.pc ≠ .idle → guarder.exists' = true ∧ guarder.locked = true) :
    s'.Holding := by
  refine h.of_guarder hguarder ?_ (fun x hx _ => hholders ▸ hx) (fun hmem => ?_) hcalling
  · rw [Counted, hclients, herror, hholders]
    exact h.counted
  · rw [hholders] at hmem
    exact absurd hmem hg

/-- A guarder whose `lock` returns becomes a client. -/
theorem enter (h : s.Holding) (hg : (s.guarder g).pc ≠ .idle) : (s.enter g).Holding := by
  obtain ⟨hexists, hlocked⟩ := h.calling g hg
  have hnot : g ∉ s.holders := h.notMem fun hidle => hg hidle.1.2
  have hcounted : (s.enter g).Counted := by
    refine ⟨?_, h.counted.2⟩
    change s.clients + 1 = (insert g s.holders).card
    rw [Finset.card_insert_of_notMem hnot, h.counted.1]
  refine h.of_guarder rfl hcounted (fun x hx hne => ?_)
    (fun _ => ⟨hexists, rfl, hlocked⟩) fun hpc => absurd rfl hpc
  exact Finset.mem_of_mem_insert_of_ne hx hne

/-- A client is counted down. -/
theorem unlock (h : s.Holding) (hg : g ∈ s.holders) (hpc : guarder.pc = .idle) :
    (s.unlock g guarder).Holding := by
  have hpos : 0 < s.clients := by
    rw [h.counted.1]
    exact Finset.card_pos.mpr ⟨g, hg⟩
  unfold Controller.unlock
  rw [if_neg hpos.ne']
  refine h.of_guarder rfl ⟨?_, h.counted.2⟩ (fun x hx _ => Finset.mem_of_mem_erase hx)
    (fun hmem => absurd hmem (Finset.notMem_erase g _)) fun hne => absurd hpc hne
  change s.clients - 1 = (s.holders.erase g).card
  rw [Finset.card_erase_of_mem hg, h.counted.1]

/-- Moves inside a call. -/
theorem goTo (h : s.Holding) (hg : (s.guarder g).pc ≠ .idle) {pc : Pc}
    (hguarder : s'.guarder = Function.update s.guarder g { s.guarder g with pc })
    (hclients : s'.clients = s.clients) (herror : s'.unlockError = s.unlockError)
    (hholders : s'.holders = s.holders) : s'.Holding :=
  h.aside (h.notMem fun hidle => hg hidle.1.2) hguarder hclients herror hholders
    fun _ => h.calling g hg

theorem step (h : s.Holding) (action : Action G) (hheld : ReleasesHeld action s) :
    (s.step action).Holding := by
  cases action with
  | create g =>
    simp only [Controller.step]
    split_ifs with habsent
    · refine h.aside (h.notMem fun hidle => ?_) rfl rfl rfl rfl fun hpc => absurd rfl hpc
      rw [hidle.1.1] at habsent
      cases habsent
    · exact h
  | lock g =>
    simp only [Controller.step]
    split_ifs with hlock
    · refine h.aside (h.notMem fun hidle => ?_) rfl rfl rfl rfl fun _ => ⟨rfl, rfl⟩
      rw [hidle.2] at hlock
      cases hlock.2
    · exact h
  | acquire g =>
    simp only [Controller.step]
    split_ifs with hwaits
    · have hpc : (s.guarder g).pc ≠ .idle := by
        rcases hwaits.2 with heq | heq <;> rw [heq] <;> decide
      unfold Controller.acquire
      split_ifs
      · exact h.enter hpc
      · exact h.goTo hpc rfl rfl rfl rfl
    · exact h
  | check g memoryLimit openFilesLimit =>
    simp only [Controller.step]
    split_ifs with hcheck
    · have hpc : (s.guarder g).pc ≠ .idle := by
        rw [hcheck]
        decide
      rcases isLimit memoryLimit openFilesLimit with _ | _ | _
      · exact h.goTo hpc rfl rfl rfl rfl
      · exact h.enter hpc
      · exact h.goTo hpc rfl rfl rfl rfl
    · exact h
  | unlock g =>
    simp only [Controller.step]
    split_ifs with hreleases
    · exact h.unlock (hheld hreleases) rfl
    · exact h
  | destroy g =>
    simp only [Controller.step]
    split_ifs with hreleases hunlocked
    · exact h.unlock (hheld hreleases) rfl
    · refine h.aside (h.notMem fun hidle => ?_) rfl rfl rfl rfl fun hpc => absurd rfl hpc
      rw [hidle.2] at hunlocked
      cases hunlocked.2
    · exact h

end Holding

/-- To count down a guarder that has not locked the resources throws, or leaves the wrong count. -/
theorem mem_of_unlock {s : Controller G} {g : G} {guarder : Guarder} (h : s.Counted)
    (hunlock : (s.unlock g guarder).Counted) : g ∈ s.holders := by
  unfold unlock at hunlock
  split_ifs at hunlock with hzero
  · cases hunlock.2
  · by_contra hg
    have hcount : s.clients - 1 = (s.holders.erase g).card := hunlock.1
    rw [Finset.erase_eq_of_notMem hg, ← h.1] at hcount
    omega

theorem releasesHeld_of_counted (action : Action G) (s : Controller G) (h : s.Counted)
    (hstep : (s.step action).Counted) : ReleasesHeld action s := by
  cases action with
  | unlock g | destroy g =>
    intro hreleases
    simp only [step, if_pos hreleases] at hstep
    exact mem_of_unlock h hstep
  | _ => trivial

/-- The count is right and no unlock throws, all along a run, exactly when no guarder is counted
down whose `lock` has thrown. -/
theorem counted_iff (actions : List (Action G)) :
    Always step Counted actions (init : Controller G) ↔ Meets step ReleasesHeld actions init :=
  always_iff_meets (fun action _ hheld h => h.step action hheld) (fun _ h => h.counted)
    releasesHeld_of_counted Holding.init

/-- The check of the second guarder throws, and its destructor counts the first one down. -/
theorem not_counted_checkThrows : ¬ Always step Counted
    [.create 0, .lock 0, .acquire 0, .create 1, .lock 1, .acquire 1,
      .check 1 (.ok false) (.error "Resource guarder ERROR, cannot get limit of open files"),
      .destroy 1] (init : Controller ℕ) := by
  intro h
  have hlast := h.run.1
  revert hlast
  decide

end Controller

end Octf.Utils.ResourcesGuarder
