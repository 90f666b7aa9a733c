import Octf.Foundation.Run
import Octf.Foundation.Word
import Mathlib.Logic.Function.Basic

/-! The guard of the plugin: threads push traces while the manager starts and stops tracing.
A turn is one atomic access of a thread or of the manager. -/
namespace Octf.Plugin
open Foundation

/-- A thread, by its handle: an address that is not null. -/
abbrev Thread := Fin (2 ^ 64 - 1)

/-- The access a thread makes next in `push`. -/
inductive PushPc where
  | outside
  /-- `queueContext.tracingRefCounter++` -/
  | raise (queue : ℕ)
  /-- `if (queueContext.traceStopping)` -/
  | check (queue : ℕ)
  /-- `queueContext.tracingRefCounter--`, tracing stop was requested -/
  | retreat (queue : ℕ)
  /-- inside `IOTracePlugin::push` -/
  | inside (queue : ℕ)
  /-- `queueContext.tracingRefCounter--` -/
  | leave (queue : ℕ)
  deriving DecidableEq

/-- The access the manager makes next. -/
inductive ManagerPc where
  | idle
  /-- `queueContext.traceStopping = false` -/
  | starting (queue : ℕ)
  /-- `queueContext.traceStopping = true` -/
  | stopping (queue : ℕ)
  /-- `if (queueContext.tracingRefCounter)` of `isTraceOngoing` -/
  | polling (queue : ℕ)
  | sleeping
  deriving DecidableEq

structure IOTracePluginC where
  tracingActive : Bool
  traceStopping : ℕ → Bool
  tracingRefCounter : ℕ → ℕ
  pushes : Thread → PushPc
  manager : ManagerPc
  /-- The loop of `stopTrace` has ended, and `startTrace` was not called since. -/
  quiet : Bool

inductive PluginAction where
  | push (thread : Thread) (ioQueueId : ℕ)
  | thread (thread : Thread)
  | startTrace
  | stopTrace
  | manager

/-- `IOTracePlugin::startTrace` -/
def ioTracePluginStartTrace : Bool := true

namespace IOTracePluginC

def init : IOTracePluginC := ⟨false, fun _ => true, fun _ => 0, fun _ => .outside, .idle, true⟩

def goTo (thread : Thread) (pc : PushPc) (s : IOTracePluginC) : IOTracePluginC :=
  { s with pushes := Function.update s.pushes thread pc }

def setStopping (queue : ℕ) (value : Bool) (s : IOTracePluginC) : IOTracePluginC :=
  { s with traceStopping := Function.update s.traceStopping queue value }

def incCounter (queue : ℕ) (s : IOTracePluginC) : IOTracePluginC :=
  { s with
    tracingRefCounter :=
      Function.update s.tracingRefCounter queue (add64 (s.tracingRefCounter queue) 1) }

def decCounter (queue : ℕ) (s : IOTracePluginC) : IOTracePluginC :=
  { s with
    tracingRefCounter :=
      Function.update s.tracingRefCounter queue (sub64 (s.tracingRefCounter queue) 1) }

/-- The next access of a thread inside `push`. -/
def turn (thread : Thread) (s : IOTracePluginC) : IOTracePluginC :=
  match s.pushes thread with
  | .outside => s
  | .raise queue => (s.incCounter queue).goTo thread (.check queue)
  | .check queue =>
    if s.traceStopping queue then s.goTo thread (.retreat queue)
    else s.goTo thread (.inside queue)
  | .retreat queue => (s.decCounter queue).goTo thread .outside
  | .inside queue => s.goTo thread (.leave queue)
  | .leave queue => (s.decCounter queue).goTo thread .outside

/-- The next access of the manager, over `queueCount` queues. -/
def managerTurn (queueCount : ℕ) (s : IOTracePluginC) : IOTracePluginC :=
  match s.manager with
  | .idle => s
  | .starting queue =>
    if queue < queueCount then
      { s.setStopping queue false with manager := .starting (queue + 1) }
    else { s with manager := .idle }
  | .stopping queue =>
    if queue < queueCount then
      { s.setStopping queue true with manager := .stopping (queue + 1) }
    else { s with manager := .polling 0 }
  | .polling queue =>
    if queue < queueCount then
      if s.tracingRefCounter queue ≠ 0 then { s with manager := .sleeping }
      else { s with manager := .polling (queue + 1) }
    else { s with manager := .idle, quiet := true }
  | .sleeping => { s with manager := .polling 0 }

/-- A call begins when its thread, or the manager, is in no other. -/
def step (queueCount : ℕ) (action : PluginAction) (s : IOTracePluginC) : IOTracePluginC :=
  match action with
  | .push thread ioQueueId =>
    if s.pushes thread = .outside then
      s.goTo thread (.raise (if queueCount < ioQueueId then ioQueueId % queueCount else ioQueueId))
    else s
  | .thread thread => s.turn thread
  | .startTrace =>
    if s.manager = .idle ∧ ioTracePluginStartTrace then
      { s with tracingActive := true, manager := .starting 0, quiet := false }
    else s
  | .stopTrace =>
    if s.manager = .idle then { s with tracingActive := false, manager := .stopping 0 } else s
  | .manager => s.managerTurn queueCount

end IOTracePluginC

end Octf.Plugin
