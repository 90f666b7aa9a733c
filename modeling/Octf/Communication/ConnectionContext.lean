import Mathlib.Data.Nat.Notation
import Mathlib.Logic.Function.Basic

/-! The connection contexts of a communication manager: who has a reference to them, what their
receive threads do, and how they are destroyed by whoever drops the last reference. -/
namespace Octf.Communication

inductive Thread where
  /-- the receive thread of a context -/
  | rx (n : ℕ)
  /-- the thread of the socket manager -/
  | socket
  /-- the thread that shuts down and destroys the manager -/
  | owner
  /-- the thread of the deleter -/
  | deleter
  /-- a thread that sends methods or responses -/
  | caller (k : ℕ)
  deriving DecidableEq

inductive ReceivePc where
  | notStarted
  /-- `while (m_conn->isActive())` -/
  | loop
  /-- `onDataPacket` -/
  | received
  /-- `handleServerMethod`, with a reference -/
  | executing
  /-- `sendDataPacket` -/
  | wantsTx
  | hasTx
  /-- `ConnectionTransceiver::deactivate`, with the reference of `handleServerMethod` or without -/
  | wantsDeactivate (held : Bool)
  | hasDeactivate (held : Bool)
  | returning
  /-- `onDisconnection` -/
  | disconnecting
  | refTaken
  /-- `onConnectionExpiration`, under the lock of the manager -/
  | expiring
  | expired (held : Bool)
  | ended
  /-- `shared_from_this` has thrown -/
  | threw
  /-- "Inconsistent connection context." -/
  | inconsistent
  deriving DecidableEq

/-- The receive thread has given back its reference and needs nothing of the context any more. -/
def ReceivePc.left : ReceivePc → Bool
  | .expired false | .ended => true
  | _ => false

/-- The thread may come to lock the transmitter. -/
def ReceivePc.needsTx : ReceivePc → Bool
  | .loop | .received | .executing | .wantsTx | .hasTx | .wantsDeactivate _ | .hasDeactivate _
  | .returning => true
  | _ => false

/-- The thread may come to lock the manager. -/
def ReceivePc.needsLock : ReceivePc → Bool
  | .disconnecting | .refTaken | .expiring => true
  | pc => pc.needsTx

inductive SocketPc where
  | idle
  /-- the server: before the lock, under it, and behind it -/
  | created (n : ℕ)
  | pushing (n : ℕ)
  | activating (n : ℕ)
  | returning (n : ℕ)
  /-- the client, under the lock -/
  | assigning
  | proxying (n : ℕ)
  | starting (n : ℕ)
  | unlocking
  | stopped
  deriving DecidableEq

inductive OwnerPc where
  | running
  | emptying
  /-- under the lock -/
  | picking
  | resetting (n : ℕ)
  | releasing
  | finished
  | connectionReset
  | destroyed
  deriving DecidableEq

inductive CallerPc where
  | idle
  | holds (n : ℕ)
  | wantsTx (n : ℕ)
  | hasTx (n : ℕ)
  deriving DecidableEq

/-- `~ConnectionContext` -/
inductive DestroyPc where
  | begun
  /-- under the transmit lock -/
  | joining
  | unlocking
  deriving DecidableEq

/-- What happens where the code has several ways to go on. -/
inductive Choice where
  | ok
  | error
  | request
  | send
  | weak (n : ℕ)
  deriving DecidableEq

inductive Role where
  | server
  | client
  deriving DecidableEq

structure Connections where
  created : ℕ
  /-- the references to a context -/
  refs : ℕ → ℕ
  rx : ℕ → ReceivePc
  txLock : ℕ → Option Thread
  isActive : ℕ → Bool
  lock : Option Thread
  activeCntxlist : List ℕ
  connCntx : Option ℕ
  /-- the context of the RPC proxy -/
  rpcProxy : Option ℕ
  inactiveConnCntxList : List ℕ
  deleterLocked : Bool
  deleterConn : Option ℕ
  socket : SocketPc
  owner : OwnerPc
  callers : ℕ → CallerPc
  /-- the destructor that a thread is in -/
  destroying : Thread → Option (ℕ × DestroyPc)

namespace Connections

def init : Connections where
  created := 0
  refs _ := 0
  rx _ := .notStarted
  txLock _ := none
  isActive _ := false
  lock := none
  activeCntxlist := []
  connCntx := none
  rpcProxy := none
  inactiveConnCntxList := []
  deleterLocked := false
  deleterConn := none
  socket := .idle
  owner := .running
  callers _ := .idle
  destroying _ := none

variable (s : Connections)

def setRx (n : ℕ) (pc : ReceivePc) : Connections := { s with rx := Function.update s.rx n pc }

def setTx (n : ℕ) (holder : Option Thread) : Connections :=
  { s with txLock := Function.update s.txLock n holder }

def close (n : ℕ) : Connections := { s with isActive := Function.update s.isActive n false }

def addRef (n : ℕ) : Connections := { s with refs := Function.update s.refs n (s.refs n + 1) }

/-- A reference is dropped; with the last one the thread begins to destroy the context. -/
def dropRef (t : Thread) (n : ℕ) : Connections :=
  { s with
    refs := Function.update s.refs n (s.refs n - 1)
    destroying := if s.refs n = 1 then Function.update s.destroying t (some (n, .begun))
      else s.destroying }

/-- `make_shared<ConnectionContext>` -/
def create : Connections :=
  { s with
    created := s.created + 1
    refs := Function.update s.refs s.created 1
    isActive := Function.update s.isActive s.created true }

/-- A step of a receive thread, and the reference that it drops. -/
def rxAct (role : Role) (n : ℕ) (choice : Choice) : Connections × Option ℕ :=
  match s.rx n with
  | .loop =>
    if s.isActive n then
      if choice = .error then (s.close n, none) else (s.setRx n .received, none)
    else (s.setRx n .disconnecting, none)
  | .received =>
    match choice with
    -- the packet cannot be parsed
    | .error => (s.setRx n (.wantsDeactivate false), none)
    | .request =>
      if s.refs n = 0 then (s.setRx n .threw, none)
      else ((s.addRef n).setRx n .executing, none)
    | _ => (s.setRx n .loop, none)
  | .executing =>
    match choice with
    | .error => (s.setRx n (.wantsDeactivate true), none)
    | .send => (s.setRx n .wantsTx, none)
    | _ => (s.setRx n .returning, none)
  | .wantsTx =>
    if s.txLock n = none then ((s.setTx n (some (.rx n))).setRx n .hasTx, none) else (s, none)
  | .hasTx =>
    let s := if choice = .error then s.close n else s
    ((s.setTx n none).setRx n .executing, none)
  | .wantsDeactivate held =>
    if s.txLock n = none then
      ((s.setTx n (some (.rx n))).setRx n (.hasDeactivate held), none)
    else (s, none)
  -- the thread does not join itself
  | .hasDeactivate held =>
    (((s.close n).setTx n none).setRx n (if held then .returning else .loop), none)
  | .returning => (s.setRx n .loop, some n)
  | .disconnecting =>
    if s.refs n = 0 then (s.setRx n .threw, none) else ((s.addRef n).setRx n .refTaken, none)
  | .refTaken =>
    if s.lock = none then ({ s with lock := some (.rx n) }.setRx n .expiring, none)
    else (s, none)
  | .expiring =>
    match role with
    | .server =>
      if n ∈ s.activeCntxlist then
        if s.deleterLocked then (s, none)
        -- the list drops its reference, and the thread's own goes to the deleter
        else ({ s with
            activeCntxlist := s.activeCntxlist.erase n
            inactiveConnCntxList := s.inactiveConnCntxList ++ [n]
            lock := none }.setRx n (.expired false), some n)
      else ({ s with lock := none }.setRx n (.expired true), none)
    | .client =>
      if s.connCntx = some n then
        ({ s with rpcProxy := none, lock := none }.setRx n (.expired true), s.rpcProxy)
      else (s.setRx n .inconsistent, none)
  | .expired true => (s.setRx n (.expired false), some n)
  | .expired false => (s.setRx n .ended, none)
  | .notStarted | .ended | .threw | .inconsistent => (s, none)

/-- A step of `onConnection`. -/
def socketAct (role : Role) : Connections × Option ℕ :=
  match s.socket with
  | .idle =>
    match role with
    | .server => ({ s.create with socket := .created s.created }, none)
    | .client =>
      if s.lock = none then ({ s with lock := some .socket, socket := .assigning }, none)
      else (s, none)
  | .created n =>
    if s.lock = none then ({ s with lock := some .socket, socket := .pushing n }, none)
    else (s, none)
  | .pushing n =>
    ({ s.addRef n with
        activeCntxlist := s.activeCntxlist ++ [n], lock := none, socket := .activating n }, none)
  | .activating n => ({ s.setRx n .loop with socket := .returning n }, none)
  | .returning n => ({ s with socket := .idle }, some n)
  | .assigning =>
    ({ s.create with connCntx := some s.created, socket := .proxying s.created }, s.connCntx)
  | .proxying n => ({ s.addRef n with rpcProxy := some n, socket := .starting n }, s.rpcProxy)
  | .starting n => ({ s.setRx n .loop with socket := .unlocking }, none)
  | .unlocking => ({ s with lock := none, socket := .idle }, none)
  | .stopped => (s, none)

/-- A step of `shutdown` or of the destruction of the manager. -/
def ownerAct (role : Role) (choice : Choice) : Connections × Option ℕ :=
  match s.owner with
  -- the thread of the socket manager is joined
  | .running =>
    if s.socket = .idle then
      -- the destructor of the client does not shut down
      ({ s with
          socket := .stopped
          owner := if role = .client ∧ choice = .error then .finished else .emptying }, none)
    else (s, none)
  | .emptying =>
    if s.lock = none then ({ s with lock := some .owner, owner := .picking }, none) else (s, none)
  | .picking =>
    match role with
    | .server =>
      match s.activeCntxlist with
      | [] => ({ s with lock := none, owner := .finished }, none)
      | n :: rest =>
        ({ s with activeCntxlist := rest, lock := none, owner := .resetting n }, none)
    | .client => ({ s with rpcProxy := none, owner := .releasing }, s.rpcProxy)
  | .resetting n => ({ s with owner := .emptying }, some n)
  | .releasing => ({ s with lock := none, owner := .finished }, none)
  | .finished => ({ s with connCntx := none, owner := .connectionReset }, s.connCntx)
  | .connectionReset => ({ s with rpcProxy := none, owner := .destroyed }, s.rpcProxy)
  | .destroyed => (s, none)

/-- A step of the deleter, which drops the context it had when it takes the next one. -/
def deleterAct : Connections × Option ℕ :=
  if s.deleterLocked then ({ s with deleterLocked := false }, none)
  else
    match s.inactiveConnCntxList with
    | n :: rest =>
      ({ s with inactiveConnCntxList := rest, deleterConn := some n, deleterLocked := true },
        s.deleterConn)
    | [] => ({ s with deleterConn := none }, s.deleterConn)

/-- A step of a thread that sends by the RPC proxy, or a response of a method, which has only a weak
reference. -/
def callerAct (k : ℕ) (choice : Choice) : Connections × Option ℕ :=
  let goTo := fun (s : Connections) pc => { s with callers := Function.update s.callers k pc }
  match s.callers k with
  | .idle =>
    match choice with
    | .weak n => if s.refs n = 0 then (s, none) else (goTo (s.addRef n) (.holds n), none)
    | _ =>
      match s.rpcProxy with
      | none => (s, none)
      | some n => (goTo (s.addRef n) (.holds n), none)
  | .holds n => if choice = .send then (goTo s (.wantsTx n), none) else (goTo s .idle, some n)
  | .wantsTx n =>
    if s.txLock n = none then (goTo (s.setTx n (some (.caller k))) (.hasTx n), none)
    else (s, none)
  | .hasTx n =>
    let s := if choice = .error then s.close n else s
    (goTo (s.setTx n none) (.holds n), none)

def act (role : Role) (op : Thread × Choice) : Connections × Option ℕ :=
  match op.1 with
  | .rx n => s.rxAct role n op.2
  | .socket => s.socketAct role
  | .owner => s.ownerAct role op.2
  | .deleter => s.deleterAct
  | .caller k => s.callerAct k op.2

/-- A step of `~ConnectionContext`. -/
def destroyAct (t : Thread) (n : ℕ) (pc : DestroyPc) : Connections :=
  let goTo := fun (s : Connections) pc =>
    { s with destroying := Function.update s.destroying t pc }
  match pc with
  | .begun =>
    if s.txLock n = none then
      goTo ((s.setTx n (some t)).close n) <| some <|
        if s.rx n ≠ .notStarted ∧ t ≠ .rx n then (n, .joining) else (n, .unlocking)
    else s
  | .joining => if s.rx n = .ended then goTo s (some (n, .unlocking)) else s
  | .unlocking => goTo (s.setTx n none) none

def step (role : Role) (op : Thread × Choice) (s : Connections) : Connections :=
  match s.destroying op.1 with
  | some (n, pc) => s.destroyAct op.1 n pc
  | none =>
    match s.act role op with
    | (s, none) => s
    | (s, some n) => s.dropRef op.1 n

end Connections

end Octf.Communication
