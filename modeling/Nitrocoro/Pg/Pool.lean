import Nitrocoro.Lib.Transition
import Mathlib.Data.Finset.Range
import Mathlib.Algebra.Order.BigOperators.Group.Finset

/-! `PoolState`, `PgPool::acquire` and `PooledConnection`. All state changes run on the
scheduler of the pool, so one resumption, callback or queued task is one step.
Waiters, connections and `PooledConnection` objects are named by counters; the
records beside the queues stand for the objects these names point to. -/
namespace Nitrocoro.Pg.Pool

inductive Error where
  | pgTimeoutError (what : String)
  | pgConnectionError (what : String)
  deriving DecidableEq

/-- The state of `Promise<std::unique_ptr<PgConnectionImpl>>`. -/
inductive Promise where
  | unsatisfied
  | value (conn : Nat)
  | exception (error : Error)
  deriving DecidableEq

/-- A `PoolState::Waiter` and the `acquire` coroutine that owns it. -/
structure Waiter where
  promise : Promise := .unsatisfied
  cancelled : Bool := false
  /-- `acquire` has resumed from `co_await future.get()` and left. -/
  done : Bool := false
  deriving DecidableEq

structure Conn where
  broken : Bool := false
  /-- `PQstatus` is no longer `CONNECTION_OK`. -/
  lost : Bool := false
  /-- The `PooledConnection` that set `brokenHandler` last. -/
  brokenHandler : Option Nat := none
  deriving DecidableEq

def Conn.isAlive (c : Conn) : Bool := !c.broken && !c.lost

/-- A `PooledConnection`; the flag `detached_` outlives it in the broken handler. -/
structure Handle where
  impl : Nat
  detached : Bool := false
  destroyed : Bool := false
  deriving DecidableEq

/-- A lambda passed to `scheduler->dispatch` from another thread. -/
inductive Task where
  | returnConnection (conn : Nat)
  /-- The lambda of `detachConnection`; it holds no connection, `conn` names the one
  whose breakage queued it. -/
  | detachConnection (conn : Nat)
  deriving DecidableEq

structure State where
  maxSize : UInt64
  totalCount : UInt64 := 0
  idle : List Nat := []
  waiters : List Nat := []
  waiter : Nat → Waiter := fun _ => {}
  conn : Nat → Conn := fun _ => {}
  handle : Nat → Handle := fun _ => { impl := 0, detached := true, destroyed := true }
  /-- The waiters that the spawned connect coroutines hold. -/
  connecting : List Nat := []
  /-- The ready queue, as far as the pool put tasks on it. -/
  tasks : List Task := []
  nextWaiter : Nat := 0
  nextConn : Nat := 0
  nextHandle : Nat := 0
  /-- History: waiters whose satisfied promise was satisfied again. -/
  alreadySatisfied : List Nat := []
  /-- History: the connections that gave their slot back. -/
  released : List Nat := []
  /-- History: `totalCount` was decremented at zero. -/
  underflow : Bool := false
  /-- History: each waiter with the connection it was satisfied with, and `isAlive` then. -/
  handovers : List (Nat × Nat × Bool) := []

def State.setWaiter (s : State) (w : Nat) (waiter : Waiter) : State :=
  { s with waiter := Function.update s.waiter w waiter }

def State.setConn (s : State) (c : Nat) (conn : Conn) : State :=
  { s with conn := Function.update s.conn c conn }

def State.setHandle (s : State) (h : Nat) (handle : Handle) : State :=
  { s with handle := Function.update s.handle h handle }

/-- `--totalCount`; the slot was that of `conn`, if there was a connection. -/
def State.release (s : State) (conn : Option Nat) : State :=
  { s with
    totalCount := s.totalCount - 1
    released := conn.toList ++ s.released
    underflow := s.underflow || s.totalCount == 0 }

/-- `set_value` of the promise of `w`. On a satisfied promise it throws, which `none` stands for. -/
def State.setValue (s : State) (w c : Nat) : Option State :=
  match (s.waiter w).promise with
  | .unsatisfied => some
      { s.setWaiter w { s.waiter w with promise := .value c } with
        handovers := s.handovers ++ [(w, c, (s.conn c).isAlive)] }
  | _ => none

def State.setException (s : State) (w : Nat) (error : Error) : Option State :=
  match (s.waiter w).promise with
  | .unsatisfied => some (s.setWaiter w { s.waiter w with promise := .exception error })
  | _ => none

/-- The step ends with future_error(promise_already_satisfied). -/
def State.fault (s : State) (w : Nat) : State :=
  { s with alreadySatisfied := s.alreadySatisfied ++ [w] }

def State.skipCancelled (s : State) : State :=
  { s with waiters := s.waiters.dropWhile fun w => (s.waiter w).cancelled }

def dispatch (s : State) : State :=
  let s := s.skipCancelled
  match s.waiters with
  | [] => s
  | w :: waiters =>
    match s.idle with
    | c :: idle =>
      match s.setValue w c with
      | none => s.fault w
      | some t => { t with idle := idle, waiters := waiters }
    | [] =>
      if s.totalCount < s.maxSize then
        { s with
          totalCount := s.totalCount + 1
          waiters := waiters
          connecting := s.connecting ++ [w] }
      else s

/-- The lambda of `returnConnection`. -/
def returnConnection (s : State) (c : Nat) : State :=
  if !(s.conn c).isAlive then dispatch (s.release (some c))
  else dispatch { s with idle := s.idle ++ [c] }

/-- The lambda of `detachConnection`. -/
def detachConnection (s : State) (c : Nat) : State :=
  dispatch (s.release (some c))

/-- `scheduler->dispatch`: at once on the own thread, else through the ready queue. -/
def schedule (s : State) (inline : Bool) (task : Task) : State :=
  if inline then
    match task with
    | .returnConnection c => returnConnection s c
    | .detachConnection c => detachConnection s c
  else { s with tasks := s.tasks ++ [task] }

/-- `acquire` goes on after `co_await future.get()`: it constructs the `PooledConnection`,
which sets the broken handler, or rethrows. -/
def resume (s : State) (w : Nat) : State :=
  let s := s.setWaiter w { s.waiter w with done := true }
  match (s.waiter w).promise with
  | .value c =>
    { (s.setHandle s.nextHandle { impl := c }).setConn c
        { s.conn c with brokenHandler := some s.nextHandle } with
      nextHandle := s.nextHandle + 1 }
  | _ => s

/-- The waiter after `onCancel`; a token that is cancelled already runs the callback in it. -/
def onCancel (cancelled : Bool) : Waiter :=
  if cancelled then
    { promise := .exception (.pgTimeoutError "PgPool: acquire timed out"), cancelled := true }
  else {}

def State.push (s : State) (waiter : Waiter) : State :=
  { s.setWaiter s.nextWaiter waiter with
    nextWaiter := s.nextWaiter + 1
    waiters := s.waiters ++ [s.nextWaiter] }

/-- `acquire` from the creation of the waiter on. The coroutine suspends only on an
unsatisfied promise. -/
def acquire (s : State) (cancelled : Bool) : State :=
  let t := dispatch (s.push (onCancel cancelled))
  if (t.waiter s.nextWaiter).promise = .unsatisfied then t else resume t s.nextWaiter

/-- The waiter is kept alive by its coroutine, by the queue or by a connect coroutine. -/
def State.alive (s : State) (w : Nat) : Bool :=
  w < s.nextWaiter && (!(s.waiter w).done || s.waiters.contains w || s.connecting.contains w)

def cancel (s : State) (w : Nat) : State :=
  if s.alive w && !(s.waiter w).cancelled then
    let s := s.setWaiter w { s.waiter w with cancelled := true }
    match s.setException w (.pgTimeoutError "PgPool: acquire timed out") with
    | none => s.fault w
    | some t => t
  else s

def State.establish (s : State) (w : Nat) : State :=
  { s.setConn s.nextConn {} with
    nextConn := s.nextConn + 1
    connecting := s.connecting.erase w }

def connected (s : State) (w : Nat) : State :=
  let t := s.establish w
  if !(t.waiter w).cancelled then
    match t.setValue w s.nextConn with
    | none => t.fault w
    | some u => u
  else dispatch { t with idle := t.idle ++ [s.nextConn] }

/-- The connect coroutine of `w` gives up its slot. -/
def State.abandon (s : State) (w : Nat) : State :=
  { s with connecting := s.connecting.erase w }.release none

def connectFailed (s : State) (w : Nat) (error : Error) : State :=
  let t := s.abandon w
  if !(t.waiter w).cancelled then
    match t.setException w error with
    | none => t.fault w
    | some u => dispatch u
  else dispatch t

/-- `if (!detached->test_and_set())`, and then the task for the connection. -/
def testAndSet (s : State) (h : Nat) (inline : Bool) (task : Nat → Task) : State :=
  let t := s.setHandle h { s.handle h with detached := true }
  if !(s.handle h).detached then schedule t inline (task (s.handle h).impl) else t

def destroy (s : State) (h : Nat) (inline : Bool) : State :=
  testAndSet (s.setHandle h { s.handle h with destroyed := true }) h inline .returnConnection

/-- `ConnectionContext::handleBroken` with the handler that `PooledConnection` installs. -/
def handleBroken (s : State) (c : Nat) (inline : Bool) : State :=
  if (s.conn c).broken then s
  else
    let t := s.setConn c { s.conn c with broken := true }
    match (t.conn c).brokenHandler with
    | none => t
    | some h => testAndSet t h inline .detachConnection

inductive Action where
  | acquire (cancelled : Bool)
  | resume (w : Nat)
  | cancel (w : Nat)
  | connected (w : Nat)
  | connectFailed (w : Nat) (error : Error)
  | destroy (h : Nat) (inline : Bool)
  /-- `PQstatus` of the connection turns bad. -/
  | lose (c : Nat)
  | handleBroken (c : Nat) (inline : Bool)
  /-- The scheduler runs the first queued task. -/
  | run
  deriving DecidableEq

def step (s : State) : Action → Option State
  | .acquire cancelled => some (acquire s cancelled)
  | .resume w =>
    if w < s.nextWaiter ∧ (s.waiter w).done = false ∧ (s.waiter w).promise ≠ .unsatisfied then
      some (resume s w)
    else none
  | .cancel w => some (cancel s w)
  | .connected w => if w ∈ s.connecting then some (connected s w) else none
  | .connectFailed w error => if w ∈ s.connecting then some (connectFailed s w error) else none
  | .destroy h inline =>
    if h < s.nextHandle ∧ (s.handle h).destroyed = false then some (destroy s h inline) else none
  | .lose c => if c < s.nextConn then some (s.setConn c { s.conn c with lost := true }) else none
  | .handleBroken c inline => if c < s.nextConn then some (handleBroken s c inline) else none
  | .run =>
    match s.tasks with
    | [] => none
    | task :: tasks => some (schedule { s with tasks := tasks } true task)

abbrev Reaches (maxSize : UInt64) (allowed : State → Action → Prop) (labels : List Action)
    (s : State) : Prop :=
  Transition.Run step allowed { maxSize := maxSize } labels s

end Nitrocoro.Pg.Pool
