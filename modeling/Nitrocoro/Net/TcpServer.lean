import Nitrocoro.Io.Perform

/-! `TcpServer`: the accept loop of `start()`, the connections with their handlers, and `stop()`, on
the thread of one scheduler. A coroutine runs from one suspension to the next, and the ready queue
is served in order. What the kernel answers, when coroutines of the application are scheduled and
what they do is up to the environment. A dereferenced null pointer is a crash, and ends the run. -/
namespace Nitrocoro.Net
open Io

inductive ConnState where
  | connected
  | peerShutdown
  | localShutdown
  | closed
  deriving DecidableEq

inductive HandlerPC where
  | spawned
  | running
  /-- The handler returned on another scheduler, and `switch_to` has scheduled the coroutine. -/
  | returned
  /-- The connection was erased from the set. -/
  | erased
  deriving DecidableEq

structure Conn where
  state : ConnState := .connected
  /-- `ioChannelPtr_` is not null. -/
  channel : Bool := true
  handler : HandlerPC := .spawned
  /-- History: `stop()` called `shutdown()` on it. -/
  shut : Bool := false
  deriving DecidableEq

namespace Conn

/-- What an application does with a connection, and what a read or write does to its state. -/
inductive Op where
  | readEof
  | failed
  | shutdown
  | forceClose
  deriving DecidableEq

def shutdown (conn : Conn) : Option Conn :=
  if conn.channel then
    match conn.state with
    | .localShutdown | .closed => some conn
    | .peerShutdown => some { conn with state := .closed }
    | .connected => some { conn with state := .localShutdown }
  else none

def forceClose (conn : Conn) : Option Conn :=
  if conn.channel then some { conn with state := .closed, channel := false } else none

def apply (conn : Conn) : Op → Option Conn
  | .readEof =>
    some { conn with state := if conn.state = .localShutdown then .closed else .peerShutdown }
  | .failed => some { conn with state := .closed }
  | .shutdown => conn.shutdown
  | .forceClose => conn.forceClose

def finished (conn : Conn) : Bool := conn.handler = .returned || conn.handler = .erased

end Conn

namespace TcpServer

/-- `start()`. -/
inductive LoopPC where
  | idle
  /-- `co_await scheduler_->switch_to()` from another thread. -/
  | switching
  | entering
  /-- In `performRead`, before a call of `accept4`. -/
  | accepting
  /-- The channel has the handle. -/
  | suspended
  /-- The handle was passed to `Scheduler::schedule`. -/
  | scheduled
  | ended
  /-- `listen` failed. -/
  | failed
  deriving DecidableEq

inductive StopPC where
  | idle
  | switching
  | entering
  /-- `co_await stopFuture_.get()`. -/
  | waiting
  | scheduled
  | returned
  deriving DecidableEq

inductive Handle where
  | loop
  | stop
  | spawn (c : Nat)
  | erase (c : Nat)
  /-- A handler or another coroutine of the application. -/
  | user
  deriving DecidableEq

inductive Runner where
  | loop
  | stop
  | user
  deriving DecidableEq

inductive Answer where
  | success
  | again
  | interrupted
  | failed
  deriving DecidableEq

/-- The part of the server that does not depend on its connections. -/
structure Control where
  stopped : Bool := false
  /-- `stopPromise_` is set. -/
  done : Bool := false
  listenChannel : Option (Channel Unit) := none
  loop : LoopPC := .idle
  stop : StopPC := .idle
  queue : List Handle := []
  current : Option Runner := none
  deriving DecidableEq

namespace Control

/-- The handles that the channel gives to `Scheduler::schedule`. -/
def wake (s : Control) : List Unit → Control
  | [] => s
  | _ :: _ => { s with loop := .scheduled, queue := s.queue ++ [.loop] }

/-- `stopPromise_.set_value()`. -/
def setStopPromise (s : Control) : Control :=
  if s.stop = .waiting then
    { s with done := true, stop := .scheduled, queue := s.queue ++ [.stop] }
  else { s with done := true }

/-- Behind the loop of `start()`; whoever awaits it goes on. -/
def endLoop (s : Control) (ch : Channel Unit) : Control :=
  { s with
    listenChannel := some ch.disableAll
    loop := .ended
    current := some .user }.setStopPromise

/-- Behind `co_await ReadableAwaiter` in `performImpl`. -/
def awaited (s : Control) (ch : Channel Unit) : Control :=
  if ch.readCanceled then s.endLoop { ch with readCanceled := false }
  else { s with loop := .accepting, current := some .loop }

/-- `performImpl` with `WaitHint::Read` as what it waits for. -/
def performRead (s : Control) (ch : Channel Unit) : Control :=
  if ch.readable then { s with listenChannel := some ch, loop := .accepting, current := some .loop }
  else if ch.awaitReady .read then { s with listenChannel := some ch }.awaited ch
  else { s with listenChannel := some (ch.wait () .read), loop := .suspended, current := none }

def loopHead (s : Control) (ch : Channel Unit) : Control :=
  if s.stopped then s.endLoop ch else s.performRead ch

/-- `start()` behind `switch_to`, up to the first suspension or call of `accept4`. -/
def start (s : Control) (listens : Bool) : Control :=
  if listens then s.loopHead { reading := true }
  else { s with stopped := true, loop := .failed, current := some .user }.setStopPromise

/-- `performImpl` after a call of `accept4`, and the loop around it. -/
def accept (s : Control) (ch : Channel Unit) (c : Nat) : Answer → Control
  | .success => { s with queue := s.queue ++ [Handle.spawn c] }.loopHead ch
  | .again => s.performRead (ch.lower .read)
  | .interrupted => s
  | .failed => s.endLoop ch

/-- `stop()` up to the loop over the connections. -/
def cancel (s : Control) (ch : Channel Unit) : Control :=
  { s with stopped := true, listenChannel := some ch.disableAll.cancelAll.1 }.wake
    ch.disableAll.cancelAll.2

/-- `co_await stopFuture_.get()`. -/
def await (s : Control) : Control :=
  if s.done then { s with stop := .returned, current := some .user }
  else { s with stop := .waiting, current := none }

/-- The scheduler resumes the accept loop. -/
def runLoop (s : Control) : Control :=
  match s.loop, s.listenChannel with
  | .switching, _ => { s with loop := .entering, current := some .loop }
  | .scheduled, some ch => s.awaited ch
  | _, _ => s

def runStop (s : Control) : Control :=
  match s.stop with
  | .switching => { s with stop := .entering, current := some .stop }
  | .scheduled => { s with stop := .returned, current := some .user }
  | _ => s

end Control

structure State extends Control where
  /-- Connections are numbered as they are accepted. -/
  accepted : Nat := 0
  conn : Nat → Conn := fun _ => {}
  connSet : List Nat := []
  crashed : Bool := false

inductive Action where
  /-- `start()` or `stop()` is called on another thread. -/
  | callStart
  | callStop
  /-- A coroutine of this scheduler calls `start()` or `stop()`. -/
  | awaitStart
  | awaitStop
  | start (listens : Bool)
  | accept (answer : Answer)
  | stop
  /-- The scheduler calls the handler of `listenChannel_`. -/
  | deliver (ev : Events)
  /-- The scheduler takes the first entry of its ready queue. -/
  | run
  /-- A coroutine of the application is scheduled. -/
  | wake
  /-- A coroutine of the application suspends. -/
  | yield
  | conn (c : Nat) (op : Conn.Op)
  /-- The handler of a connection returns, on this scheduler or elsewhere. -/
  | finish (c : Nat) (own : Bool)
  deriving DecidableEq

namespace State

def setConn (s : State) (c : Nat) (conn : Conn) : State :=
  { s with conn := Function.update s.conn c conn }

def crash (s : State) : State := { s with crashed := true }

/-- The loop of `stop()` over its copy of the set. -/
def shutdownAll (s : State) : List Nat → State
  | [] => s
  | c :: conns =>
    match (s.conn c).shutdown with
    | some conn => (s.setConn c { conn with shut := true }).shutdownAll conns
    | none => s.crash

def accept (s : State) (ch : Channel Unit) (answer : Answer) : State :=
  let c := s.accepted
  let s := { s with toControl := s.toControl.accept ch c answer }
  match answer with
  | .success => { s with accepted := c + 1, connSet := s.connSet ++ [c] }.setConn c {}
  | _ => s

def stopBody (s : State) : State :=
  if s.stopped then { s with stop := .returned, current := some .user }
  else
    match s.listenChannel with
    | none => { s with stopped := true }.crash
    | some ch =>
      let s := { s with toControl := s.toControl.cancel ch }.shutdownAll s.connSet
      if s.crashed then s else { s with toControl := s.toControl.await }

/-- Behind the `switch_to` of a coroutine whose handler has returned. -/
def erase (s : State) (c : Nat) : State :=
  { s with connSet := s.connSet.erase c }.setConn c { s.conn c with handler := .erased }

def runHead (s : State) : Handle → State
  | .loop => { s with toControl := s.toControl.runLoop }
  | .stop => { s with toControl := s.toControl.runStop }
  | .spawn c =>
    { s with current := some .user }.setConn c { s.conn c with handler := .running }
  | .erase c => s.erase c
  | .user => { s with current := some .user }

def finish (s : State) (c : Nat) (own : Bool) : Option State :=
  if (s.conn c).handler ≠ .running then none
  else if own then
    if s.current = some .user then some (s.erase c) else none
  else
    some ({ s with queue := s.queue ++ [Handle.erase c] }.setConn c
      { s.conn c with handler := .returned })

def act (s : State) : Action → Option State
  | .callStart =>
    if s.loop = .idle then some { s with loop := .switching, queue := s.queue ++ [.loop] }
    else none
  | .callStop =>
    if s.stop = .idle then some { s with stop := .switching, queue := s.queue ++ [.stop] }
    else none
  | .awaitStart =>
    if s.current = some .user ∧ s.loop = .idle then
      some { s with loop := .entering, current := some .loop }
    else none
  | .awaitStop =>
    if s.current = some .user ∧ s.stop = .idle then
      some { s with stop := .entering, current := some .stop }
    else none
  | .start listens =>
    if s.loop = .entering then some { s with toControl := s.toControl.start listens } else none
  | .accept answer =>
    match s.loop, s.listenChannel with
    | .accepting, some ch => some (s.accept ch answer)
    | _, _ => none
  | .stop => if s.stop = .entering then some s.stopBody else none
  | .deliver ev =>
    match s.current, s.listenChannel with
    | none, some ch =>
      some { s with
        toControl := { s.toControl with listenChannel := some (ch.handleIoEvents ev).1 }.wake
          (ch.handleIoEvents ev).2 }
    | _, _ => none
  | .run =>
    match s.current, s.queue with
    | none, handle :: rest => some ({ s with queue := rest }.runHead handle)
    | _, _ => none
  | .wake => some { s with queue := s.queue ++ [.user] }
  | .yield => if s.current = some .user then some { s with current := none } else none
  | .conn c op =>
    if c < s.accepted ∧ (s.conn c).handler ≠ .spawned then
      match (s.conn c).apply op with
      | some conn => some (s.setConn c conn)
      | none => some s.crash
    else none
  | .finish c own => if c < s.accepted then s.finish c own else none

def step (s : State) (action : Action) : Option State := if s.crashed then none else s.act action

/-- The accept loop has ended, and every connection that was accepted has had its handler return
or was shut down by `stop()`. -/
def Settled (s : State) : Prop :=
  (s.loop = .ended ∨ s.loop = .failed) ∧
    ∀ c < s.accepted, (s.conn c).finished ∨ (s.conn c).shut

end State

abbrev Reaches (labels : List Action) (s : State) : Prop :=
  Transition.Run State.step Transition.free {} labels s

end TcpServer
end Nitrocoro.Net
