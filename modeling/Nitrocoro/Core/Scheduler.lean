import Mathlib.Algebra.Ring.Nat
import Mathlib.Data.List.Sort
import Nitrocoro.Core.MpscQueueProofs

/-! The loop of `Scheduler::run` and the calls that hand it work. The two queues are
`MpscQueue`s whose producers are the threads `Id` and, as `none`, the thread of the loop. A push
from another thread is followed by `wakeup`, one from the thread of the loop is not. -/
namespace Nitrocoro.Scheduler
variable {Id H : Type} [DecidableEq Id]

/-- `Scheduler::Timer`; times are in nanoseconds. -/
structure Timer (H : Type) where
  due : Nat
  handle : H
  deriving DecidableEq

def kDefaultTimeoutMs : Nat := 10000

inductive Queue where
  | ready
  | timers
  deriving DecidableEq

/-- `schedule`, `spawn` and `dispatch` from another thread push to `readyQueue_`, `schedule_at`
pushes to `pendingTimers_`. A `dispatch` on the thread of the loop is a plain call. -/
inductive Call (H : Type) where
  | schedule (func : H)
  | scheduleAt (timer : Timer H)

def Call.queue : Call H → Queue
  | .schedule _ => .ready
  | .scheduleAt _ => .timers

inductive ThreadPC where
  | idle
  | pushing (queue : Queue)
  | wakeup
  deriving DecidableEq

/-- What `epoll_wait` reports: the eventfd, or another descriptor with its handler. -/
inductive Event where
  | wakeupFd
  | io
  deriving DecidableEq

/-- Where the loop goes on behind a callback. -/
inductive Back where
  | events (left : List Event)
  | ready
  deriving DecidableEq

inductive LoopPC where
  /-- `get_next_timeout`: the pops from `pendingTimers_`. -/
  | takeTimers
  /-- `get_next_timeout`: the clock and the next timer. -/
  | timeout
  /-- `epoll_wait`, with the clock and the timeout that was computed from it; a negative one
  does not end. -/
  | wait (now : Nat) (timeoutMs : Int)
  /-- The loop of `process_io_events` over what was reported. -/
  | events (left : List Event)
  /-- A handler, a function from the ready queue or a coroutine that one of them resumes. -/
  | callback (back : Back)
  /-- `process_timers`: the clock. -/
  | timers
  /-- `process_timers`: the loop over the timers that are due. -/
  | due (now : Nat)
  /-- `process_ready_queue`. -/
  | ready
  deriving DecidableEq

structure State (Id H : Type) where
  readyQueue : MpscQueue.State (Option Id) H := {}
  pendingTimers : MpscQueue.State (Option Id) (Timer H) := {}
  /-- `timers_`, with the top first. -/
  timers : List (Timer H) := []
  /-- The counter of the eventfd. -/
  wakeupFd : Nat := 0
  thread : Id → ThreadPC := fun _ => .idle
  loop : LoopPC := .takeTimers

inductive Action (Id H : Type) where
  /-- Another thread calls into the scheduler. -/
  | call (i : Id) (call : Call H)
  /-- The next step of such a call. -/
  | advance (i : Id)
  /-- A callback calls into the scheduler. -/
  | own (call : Call H)
  /-- The next step of the push of such a call, or of one in `process_timers`. -/
  | ownAdvance (queue : Queue)
  /-- The next step of the loop that depends on nothing else. -/
  | tick
  /-- The next step of the loop, which reads the clock. -/
  | clock (now : Nat)
  /-- `epoll_wait` returns. -/
  | wakes (events : List Event)

namespace State

/-- `get_next_timeout`, after it has emptied `pendingTimers_`. -/
def nextTimeout (timers : List (Timer H)) (now : Nat) : Nat :=
  match timers with
  | [] => kDefaultTimeoutMs
  | next :: _ => if next.due ≤ now then 0 else (next.due - now) / 1000000

def insert (timer : Timer H) (timers : List (Timer H)) : List (Timer H) :=
  timers.orderedInsert (fun a b => a.due ≤ b.due) timer

/-- The cast of the timeout to the `int` of `epoll_wait`. -/
def toInt (ms : Nat) : Int := Int.bmod ms (2 ^ 32)

def goto (s : State Id H) (i : Id) (pc : ThreadPC) : State Id H :=
  { s with thread := Function.update s.thread i pc }

def beginPush (s : State Id H) (i : Option Id) : Call H → Option (State Id H)
  | .schedule func =>
    (s.readyQueue.step (.push i func)).map fun readyQueue => { s with readyQueue }
  | .scheduleAt timer =>
    (s.pendingTimers.step (.push i timer)).map fun pendingTimers => { s with pendingTimers }

def advancePush (s : State Id H) (i : Option Id) : Queue → Option (State Id H)
  | .ready => (s.readyQueue.advance i).map fun readyQueue => { s with readyQueue }
  | .timers => (s.pendingTimers.advance i).map fun pendingTimers => { s with pendingTimers }

def pushPC (s : State Id H) (i : Option Id) : Queue → MpscQueue.PushPC
  | .ready => s.readyQueue.push i
  | .timers => s.pendingTimers.push i

def ownIdle (s : State Id H) : Bool :=
  s.pushPC none .ready = .idle ∧ s.pushPC none .timers = .idle

def advance (s : State Id H) (i : Id) : Option (State Id H) :=
  match s.thread i with
  | .idle => none
  | .pushing queue => (s.advancePush (some i) queue).map fun s =>
    if s.pushPC (some i) queue = .idle then s.goto i .wakeup else s
  | .wakeup => some ({ s with wakeupFd := s.wakeupFd + 1 }.goto i .idle)

/-- A step of `get_next_timeout` inside its loop of pops. -/
def takeTimer (s : State Id H) : Option (State Id H) :=
  s.pendingTimers.consume.map fun pendingTimers =>
    match s.pendingTimers.returned with
    | none => { s with pendingTimers }
    | some none => { s with pendingTimers, loop := .timeout }
    | some (some timer) => { s with pendingTimers, timers := insert timer s.timers }

/-- A step of `process_ready_queue`. -/
def takeReady (s : State Id H) : Option (State Id H) :=
  s.readyQueue.consume.map fun readyQueue =>
    match s.readyQueue.returned with
    | none => { s with readyQueue }
    | some none => { s with readyQueue, loop := .takeTimers }
    | some (some _) => { s with readyQueue, loop := .callback .ready }

def back : Back → LoopPC
  | .events left => .events left
  | .ready => .ready

def tick (s : State Id H) : Option (State Id H) :=
  match s.loop with
  | .takeTimers => s.takeTimer
  | .events [] => some { s with loop := .timers }
  | .events (.wakeupFd :: left) => some { s with wakeupFd := 0, loop := .events left }
  | .events (.io :: left) => some { s with loop := .callback (.events left) }
  | .callback place => if s.ownIdle then some { s with loop := back place } else none
  | .due now =>
    if s.ownIdle then
      match s.timers with
      | timer :: timers =>
        if timer.due ≤ now then { s with timers }.beginPush none (.schedule timer.handle)
        else some { s with loop := .ready }
      | [] => some { s with loop := .ready }
    else none
  | .ready => s.takeReady
  | .timeout | .wait .. | .timers => none

def step (s : State Id H) : Action Id H → Option (State Id H)
  | .call i call =>
    match s.thread i with
    | .idle => (s.beginPush (some i) call).map (goto · i (.pushing call.queue))
    | _ => none
  | .advance i => s.advance i
  | .own call =>
    match s.loop with
    | .callback _ => if s.ownIdle then s.beginPush none call else none
    | _ => none
  | .ownAdvance queue => s.advancePush none queue
  | .tick => s.tick
  | .clock now =>
    match s.loop with
    | .timeout => some { s with loop := .wait now (toInt (nextTimeout s.timers now)) }
    | .timers => some { s with loop := if s.timers = [] then .ready else .due now }
    | _ => none
  | .wakes events =>
    match s.loop with
    | .wait .. =>
      if .wakeupFd ∈ events ∧ s.wakeupFd = 0 then none else some { s with loop := .events events }
    | _ => none

/-- The push of the thread is in its queue, and its `wakeup` is still to come. -/
def Waking (s : State Id H) (i : Id) : Prop :=
  s.thread i = .wakeup ∨
    ∃ queue prev node, s.thread i = .pushing queue ∧ s.pushPC (some i) queue = .link prev node

end State

abbrev Reaches (labels : List (Action Id H)) (s : State Id H) : Prop :=
  Transition.Run State.step Transition.free {} labels s

end Nitrocoro.Scheduler
