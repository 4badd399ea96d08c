import Nitrocoro.Core.Future

/-! `CancelState`: the awaiters of `cancelled()`, the calls of `cancel()`, and the callbacks of
`onCancel` with their registrations. Each atomic operation on `waiters_`, each section under
`cbMutex_`, each `test_and_set` and each call of a callback is one step, in the order of the code.
Whether `dispatch` finds itself on the thread of the scheduler is up to the environment. -/
namespace Nitrocoro.CancelState
open LockFreeList Function
-- `A` names the awaiters, `P` the calls of `cancel()` and `R` those of `onCancel`
variable {A P R : Type} [DecidableEq A] [DecidableEq P] [DecidableEq R]

/-- What the call of `cancel()` whose exchange found the list open has still to do, or has not
done when a callback threw. -/
inductive Work (A R : Type) where
  /-- The swap of `callbacks_`. -/
  | swap (waiters : Option A)
  /-- The loop over the callbacks. -/
  | callbacks (left : List R) (waiters : Option A)
  /-- A callback is run inside the loop: its `test_and_set`. -/
  | test (r : R) (left : List R) (waiters : Option A)
  /-- The same callback, which has won its flag: the call. -/
  | start (r : R) (left : List R) (waiters : Option A)
  /-- The loop over the waiters; at its end nothing is left to do. -/
  | resume (node : Option A)
  deriving DecidableEq

inductive CancelPC where
  | idle
  /-- `LockFreeListNode::close`. -/
  | close
  /-- The exchange found the list open. -/
  | working
  | returned
  /-- A callback has thrown, and the exception has left `cancel()`. -/
  | threw
  deriving DecidableEq

/-- A call of `onCancel` and the registration that it returns. -/
inductive RegPC where
  | idle
  /-- `addCallback`: the section under the mutex. -/
  | adding
  /-- `addCallback` found the state cancelled and has the callback to dispatch. -/
  | late
  /-- The callback is called inside `addCallback`. -/
  | lateStart
  /-- The registration holds the flag. -/
  | registered
  /-- The registration is empty. -/
  | empty
  | unregistered
  deriving DecidableEq

/-- A function that was posted to a scheduler. -/
inductive TaskPC where
  | none
  /-- It is in the ready queue; with a flag to test, or without one. -/
  | queued (guarded : Bool)
  /-- Its `test_and_set` has won, and the callback is to be called. -/
  | start
  | finished
  deriving DecidableEq

structure State (A P R : Type) where
  waiters : Head A := .list none
  next : A → Option A := fun _ => none
  awaiter : A → Future.AwaiterPC A := fun _ => .idle
  canceler : P → CancelPC := fun _ => .idle
  work : Work A R := .resume none
  /-- `callbacks_`. -/
  callbacks : List R := []
  /-- The callback has a scheduler. -/
  sched : R → Bool := fun _ => false
  reg : R → RegPC := fun _ => .idle
  /-- `active`. -/
  flag : R → Bool := fun _ => false
  task : R → TaskPC := fun _ => .none
  /-- History: how often each callback was called. -/
  runs : R → Nat := fun _ => 0

inductive Action (A P R : Type) where
  /-- `co_await token.cancelled()`. -/
  | await (a : A)
  /-- The next atomic operation of an awaiter; a weak compare_exchange may fail spuriously. -/
  | advance (a : A) (spurious : Bool)
  /-- A scheduler runs the handle of `a`. -/
  | resume (a : A)
  /-- A call of `cancel()`. -/
  | call (p : P)
  /-- The next step of such a call; `own` says whether a dispatch is on its scheduler's thread. -/
  | cancel (p : P) (own : Bool)
  /-- The callback that such a call is to call next throws. -/
  | throws (p : P)
  /-- A call of `onCancel`, with or without a scheduler. -/
  | onCancel (r : R) (sched : Bool)
  /-- The next step of such a call. -/
  | add (r : R) (own : Bool)
  | unregister (r : R)
  /-- The next step of a function that was posted to a scheduler. -/
  | run (r : R)

namespace State

def goto (s : State A P R) (a : A) (pc : Future.AwaiterPC A) : State A P R :=
  { s with awaiter := update s.awaiter a pc }

def setCanceler (s : State A P R) (p : P) (pc : CancelPC) : State A P R :=
  { s with canceler := update s.canceler p pc }

def setReg (s : State A P R) (r : R) (pc : RegPC) : State A P R :=
  { s with reg := update s.reg r pc }

def setTask (s : State A P R) (r : R) (pc : TaskPC) : State A P R :=
  { s with task := update s.task r pc }

def start (s : State A P R) (r : R) : State A P R :=
  { s with runs := update s.runs r (s.runs r + 1) }

def testAndSet (s : State A P R) (r : R) : State A P R :=
  { s with flag := update s.flag r true }

/-- `LockFreeListNode::push` after it has read this head. -/
def pushSaw (s : State A P R) (a : A) : Head A → State A P R
  | .closed => s.goto a .resumed
  | .list cur => s.goto a (.attempt cur)

def advance (s : State A P R) (a : A) (spurious : Bool) : Option (State A P R) :=
  match s.awaiter a with
  | .awaitReady =>
    match s.waiters with
    | .closed => some (s.goto a .resumed)
    | .list _ => some (s.goto a .load)
  | .load => some (s.pushSaw a s.waiters)
  | .attempt cur =>
    let s := { s with next := update s.next a cur }
    if s.waiters = .list cur ∧ spurious = false then
      some ({ s with waiters := .list (some a) }.goto a .suspended)
    else some (s.pushSaw a s.waiters)
  | .idle | .suspended | .scheduled | .resumed => none

def proceed (s : State A P R) (p : P) (own : Bool) : Option (State A P R) :=
  match s.work with
  | .swap waiters => some { s with callbacks := [], work := .callbacks s.callbacks waiters }
  | .callbacks [] waiters => some { s with work := .resume waiters }
  | .callbacks (r :: left) waiters =>
    if s.sched r ∧ own = false then
      some ({ s with work := .callbacks left waiters }.setTask r (.queued true))
    else some { s with work := .test r left waiters }
  | .test r left waiters =>
    if s.flag r then some { s with work := .callbacks left waiters }
    else some ({ s with work := .start r left waiters }.testAndSet r)
  | .start r left waiters => some ({ s with work := .callbacks left waiters }.start r)
  | .resume none => some (s.setCanceler p .returned)
  | .resume (some node) => some ({ s with work := .resume (s.next node) }.goto node .scheduled)

def cancel (s : State A P R) (p : P) (own : Bool) : Option (State A P R) :=
  match s.canceler p with
  | .close =>
    match s.waiters with
    | .closed => some (s.setCanceler p .returned)
    | .list top => some ({ s with waiters := .closed, work := .swap top }.setCanceler p .working)
  | .working => s.proceed p own
  | .idle | .returned | .threw => none

/-- Nothing catches the exception: what is left of the loops is not done any more. -/
def throws (s : State A P R) (p : P) : Option (State A P R) :=
  match s.canceler p, s.work with
  | .working, .start r left waiters =>
    some (({ s with work := .callbacks left waiters }.start r).setCanceler p .threw)
  | _, _ => none

def add (s : State A P R) (r : R) (own : Bool) : Option (State A P R) :=
  match s.reg r with
  | .adding =>
    match s.waiters with
    | .closed => some (s.setReg r .late)
    | .list _ => some ({ s with callbacks := s.callbacks ++ [r] }.setReg r .registered)
  | .late =>
    if s.sched r ∧ own = false then some ((s.setTask r (.queued false)).setReg r .empty)
    else some (s.setReg r .lateStart)
  | .lateStart => some ((s.start r).setReg r .empty)
  | .idle | .registered | .empty | .unregistered => none

def run (s : State A P R) (r : R) : Option (State A P R) :=
  match s.task r with
  | .queued false => some ((s.start r).setTask r .finished)
  | .queued true =>
    if s.flag r then some (s.setTask r .finished) else some ((s.testAndSet r).setTask r .start)
  | .start => some ((s.start r).setTask r .finished)
  | .none | .finished => none

def step (s : State A P R) : Action A P R → Option (State A P R)
  | .await a => if s.awaiter a = .idle then some (s.goto a .awaitReady) else none
  | .advance a spurious => s.advance a spurious
  | .resume a => if s.awaiter a = .scheduled then some (s.goto a .resumed) else none
  | .call p => if s.canceler p = .idle then some (s.setCanceler p .close) else none
  | .cancel p own => s.cancel p own
  | .throws p => s.throws p
  | .onCancel r sched =>
    if s.reg r = .idle then
      some ({ s with sched := update s.sched r sched }.setReg r .adding)
    else none
  | .add r own => s.add r own
  | .unregister r =>
    match s.reg r with
    | .registered => some ((s.testAndSet r).setReg r .unregistered)
    | .empty => some (s.setReg r .unregistered)
    | _ => none
  | .run r => s.run r

end State

abbrev Reaches (labels : List (Action A P R)) (s : State A P R) : Prop :=
  Transition.Run State.step Transition.free {} labels s

end Nitrocoro.CancelState
