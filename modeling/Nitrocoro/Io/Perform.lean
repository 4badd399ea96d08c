import Mathlib.Logic.Function.Basic
import Nitrocoro.Lib.Transition
import Nitrocoro.Io.Channel

/-! Operations on one edge-triggered `Channel`: a reader with a `BufferReader`, a writer with a
`BufferWriter`, the scheduler that delivers events to it and resumes them, and the kernel. Between
two suspensions an operation has the thread of the scheduler for itself; only the kernel moves
meanwhile. -/
namespace Nitrocoro.Io

inductive Dir where
  | read
  | write
  deriving DecidableEq

namespace Channel
variable {H : Type}

/-- `readable` or `writable`. -/
def flag (ch : Channel H) : Dir → Bool
  | .read => ch.readable
  | .write => ch.writable

def waiter (ch : Channel H) : Dir → Option H
  | .read => ch.readableWaiter
  | .write => ch.writableWaiter

def canceled (ch : Channel H) : Dir → Bool
  | .read => ch.readCanceled
  | .write => ch.writeCanceled

def enabled (ch : Channel H) : Dir → Bool
  | .read => ch.reading
  | .write => ch.writing

def lower (ch : Channel H) : Dir → Channel H
  | .read => { ch with readable := false }
  | .write => { ch with writable := false }

/-- `await_suspend` of `ReadableAwaiter` and `WritableAwaiter`, when it returns true. -/
def wait (ch : Channel H) (h : H) : Dir → Channel H
  | .read => { ch with readableWaiter := some h }
  | .write => { ch with writableWaiter := some h }

def clearCanceled (ch : Channel H) : Dir → Channel H
  | .read => { ch with readCanceled := false }
  | .write => { ch with writeCanceled := false }

def enable (ch : Channel H) : Dir → Channel H
  | .read => { ch with reading := true }
  | .write => { ch with writing := true }

def disableWriting (ch : Channel H) : Channel H := { ch with writing := false }

def cancel (ch : Channel H) : Dir → Channel H × List H
  | .read => ch.cancelRead
  | .write => ch.cancelWrite

/-- `await_ready` of `ReadableAwaiter` and `WritableAwaiter`. -/
def awaitReady (ch : Channel H) (d : Dir) : Bool := ch.flag d || ch.errored

end Channel

/-- The bit of an event that wakes the direction. -/
def Events.bit (ev : Events) : Dir → Bool
  | .read => ev.input
  | .write => ev.output

inductive IoStatus where
  | success
  | needRead
  | needWrite
  | retry
  | eof
  | error
  deriving DecidableEq

inductive IoResult where
  | success
  | eof
  | error
  | canceled
  deriving DecidableEq

/-- What `::read` and `::write` return. -/
inductive Answer where
  /-- The buffer is empty, and no call is made. -/
  | empty
  /-- A positive number; for a write the buffer is written to its end. -/
  | done
  /-- A write of a part of what is left. -/
  | part
  /-- 0, of a read. -/
  | zero
  | again
  | interrupted
  /-- EPIPE and ECONNRESET. -/
  | closed
  | failed
  deriving DecidableEq

def bufferReader : Answer → IoStatus
  | .empty => .success
  | .done => .success
  | .part => .success
  | .zero => .eof
  | .again => .needRead
  | .interrupted => .retry
  | .closed => .error
  | .failed => .error

/-- Without its calls of `enableWriting` and `disableWriting`. -/
def bufferWriter : Answer → IoStatus
  | .empty => .success
  | .done => .success
  | .part => .retry
  | .zero => .error
  | .again => .needWrite
  | .interrupted => .retry
  | .closed => .eof
  | .failed => .error

/-- A place in `performImpl`; `pendingWait` is the direction to wait for, if there is one. -/
inductive OpPC where
  | idle
  /-- `co_await scheduler_->switch_to()`. -/
  | switching (hint : Option Dir)
  /-- The head of the loop. -/
  | head (pendingWait : Option Dir)
  | suspended (on : Dir)
  /-- The call of the adapter, up to its system call. -/
  | attempt
  | answered (answer : Answer)
  | returned (result : IoResult)
  deriving DecidableEq

def OpPC.running : OpPC → Bool
  | .head _ => true
  | .attempt => true
  | .answered _ => true
  | _ => false

def OpPC.ended : OpPC → Bool
  | .idle => true
  | .returned _ => true
  | _ => false

/-- The handle of the operation of a direction is the direction. -/
structure Perform where
  channel : Channel Dir := {}
  /-- The readiness of the descriptor. -/
  ready : Dir → Bool := fun _ => false
  /-- The kernel has an event for the direction that was not delivered yet. -/
  edge : Dir → Bool := fun _ => false
  op : Dir → OpPC := fun _ => .idle
  /-- The handles that were passed to `Scheduler::schedule` and not resumed yet. -/
  queue : List Dir := []
  /-- History: how many operations began, and how often they were suspended and resumed. -/
  started : Dir → Nat := fun _ => 0
  suspensions : Dir → Nat := fun _ => 0
  resumptions : Dir → Nat := fun _ => 0

namespace Perform

inductive Action where
  | enableReading
  /-- The readiness of the descriptor changes. -/
  | kernel (d : Dir) (ready : Bool)
  /-- `epoll_wait` finds that the direction of an event is not ready any more. -/
  | drop (d : Dir)
  /-- The handler of the channel is called. -/
  | deliver (ev : Events)
  | cancel (d : Dir)
  /-- `perform` with a hint: `performRead` and `performWrite` wait for their direction. -/
  | call (d : Dir) (wait : Bool)
  /-- `switch_to` is over. -/
  | begin (d : Dir)
  /-- The scheduler resumes a handle of its ready queue. -/
  | resume (d : Dir)
  /-- The system call of the adapter returns. -/
  | attempt (d : Dir) (answer : Answer)
  /-- The next step of an operation that does not depend on the kernel. -/
  | go (d : Dir)
  deriving DecidableEq

def goto (s : Perform) (d : Dir) (pc : OpPC) : Perform := { s with op := Function.update s.op d pc }

def free (s : Perform) : Bool := !(s.op .read).running && !(s.op .write).running

/-- The kernel reports an edge for a direction that is ready when it is added. -/
def enable (s : Perform) (d : Dir) : Perform :=
  if s.channel.enabled d then s
  else { s with channel := s.channel.enable d, edge := Function.update s.edge d (s.ready d) }

def disableWriting (s : Perform) : Perform :=
  { s with channel := s.channel.disableWriting, edge := Function.update s.edge .write false }

/-- The adapter of the direction, after its system call. -/
def adapter (s : Perform) : Dir → Answer → Perform × IoStatus
  | .read, answer => (s, bufferReader answer)
  | .write, .done => (s.disableWriting, bufferWriter .done)
  | .write, .again => (s.enable .write, bufferWriter .again)
  | .write, answer => (s, bufferWriter answer)

/-- The statements behind `co_await` of an awaiter. -/
def awaited (s : Perform) (d on : Dir) : Perform :=
  if s.channel.canceled on then
    { s with channel := s.channel.clearCanceled on }.goto d (.returned .canceled)
  else s.goto d .attempt

/-- The first half of the loop of `performImpl`. -/
def loopHead (s : Perform) (d : Dir) : Option Dir → Perform
  | none => s.goto d .attempt
  | some on =>
    if s.channel.flag on then s.goto d .attempt
    else if s.channel.awaitReady on then s.awaited d on
    else
      { s with
        channel := s.channel.wait d on
        suspensions := Function.update s.suspensions d (s.suspensions d + 1) }.goto d (.suspended on)

/-- The switch of `performImpl`. -/
def switch (s : Perform) (d : Dir) : IoStatus → Perform
  | .success => s.goto d (.returned .success)
  | .eof => s.goto d (.returned .eof)
  | .error => s.goto d (.returned .error)
  | .needRead => { s with channel := s.channel.lower .read }.goto d (.head (some .read))
  | .needWrite => { s with channel := s.channel.lower .write }.goto d (.head (some .write))
  | .retry => s.goto d (.head none)

def go (s : Perform) (d : Dir) : Option Perform :=
  match s.op d with
  | .head pendingWait => some (s.loopHead d pendingWait)
  | .answered answer => some ((s.adapter d answer).1.switch d (s.adapter d answer).2)
  | _ => none

/-- The assumptions on system calls: EAGAIN means that the direction is not ready, and a write of
a positive length does not return 0. -/
def possible (s : Perform) (d : Dir) : Answer → Bool
  | .again => !s.ready d
  | .zero => d = .read
  | _ => true

def resume (s : Perform) (d : Dir) : Option Perform :=
  match s.op d with
  | .suspended on =>
    some ({ s with
      queue := s.queue.erase d
      resumptions := Function.update s.resumptions d (s.resumptions d + 1) }.awaited d on)
  | _ => none

def step (s : Perform) : Action → Option Perform
  | .enableReading => if s.free then some (s.enable .read) else none
  | .kernel d ready =>
    -- a direction that becomes ready while it is enabled gives an edge
    let edge := s.edge d || ready && !s.ready d && s.channel.enabled d
    some { s with
      ready := Function.update s.ready d ready
      edge := Function.update s.edge d edge }
  | .drop d =>
    if s.ready d then none else some { s with edge := Function.update s.edge d false }
  | .deliver ev =>
    if s.free then
      some { s with
        channel := (s.channel.handleIoEvents ev).1
        queue := s.queue ++ (s.channel.handleIoEvents ev).2
        edge := fun d => s.edge d && !ev.bit d }
    else none
  | .cancel d =>
    if s.free then
      some { s with
        channel := (s.channel.cancel d).1
        queue := s.queue ++ (s.channel.cancel d).2 }
    else none
  | .call d wait =>
    -- the reading event is enabled by the user before a read
    if (s.op d).ended ∧ (d = .read → s.channel.reading) then
      some ({ s with started := Function.update s.started d (s.started d + 1) }.goto d
        (.switching (if wait then some d else none)))
    else none
  | .begin d =>
    match s.op d with
    | .switching hint => if s.free then some (s.goto d (.head hint)) else none
    | _ => none
  | .resume d => if s.free ∧ d ∈ s.queue then s.resume d else none
  | .attempt d answer =>
    match s.op d with
    | .attempt => if s.possible d answer then some (s.goto d (.answered answer)) else none
    | _ => none
  | .go d => s.go d

end Perform

abbrev Performs (labels : List Perform.Action) (s : Perform) : Prop :=
  Transition.Run Perform.step Transition.free {} labels s

end Nitrocoro.Io
