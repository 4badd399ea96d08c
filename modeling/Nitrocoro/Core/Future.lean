import Nitrocoro.Lib.Transition
import Nitrocoro.Lib.LinkedList

/-! `Promise` and the awaiters of its `Future` or `SharedFuture`, over the one-shot
lock-free list of waiters. Every atomic operation on `waiters_`, the store of the
result and each resumption in `resumeAll` is one step, in the order of the code. -/
namespace Nitrocoro
open Transition

/-- The head of a `LockFreeListNode` list: `kClosed`, or the node pushed last. -/
inductive LockFreeList.Head (Id : Type) where
  | closed
  | list (top : Option Id)
  deriving DecidableEq

namespace Future
open LockFreeList
-- `A` names the awaiters, `P` the setter calls, `T` is the value type and `E` the exceptions
variable {A P T E : Type} [DecidableEq A] [DecidableEq P]

/-- A call that satisfies the promise. `Promise<void>::set_value` has no value to store;
`brokenPromise` is the exception that the destructor of an unsatisfied promise sets. -/
inductive Call (T E : Type) where
  | setValue (value : T)
  | setVoid
  | setException (exception : E)
  | brokenPromise

/-- What the shared state holds once the call has stored its result. -/
inductive Result (T E : Type) where
  | value (value : T)
  | exception (exception : E)
  | brokenPromise

def Call.result : Call T E → Option (Result T E)
  | .setValue value => some (.value value)
  | .setVoid => none
  | .setException exception => some (.exception exception)
  | .brokenPromise => some .brokenPromise

inductive SetterPC (A T E : Type) where
  | idle
  /-- `LockFreeListNode::close`, the exchange with `kClosed`. -/
  | close (call : Call T E)
  /-- `value_.emplace` or the assignment of `exception_`. -/
  | store (result : Result T E) (waiters : Option A)
  /-- `resumeAll` at this node. -/
  | resumeAll (node : Option A)
  | returned
  /-- future_error(promise_already_satisfied) was thrown. -/
  | threw

inductive AwaiterPC (A : Type) where
  | idle
  /-- `await_ready`: the load of `closed`. -/
  | awaitReady
  /-- `push`: the first load of the head. -/
  | load
  /-- `push`: the compare_exchange_weak with this expected head. -/
  | attempt (cur : Option A)
  | suspended
  /-- `resumeAll` passed the handle to the scheduler (or to `resume`). -/
  | scheduled
  /-- `await_resume` has been reached. -/
  | resumed
  deriving DecidableEq

structure State (A P T E : Type) where
  waiters : Head A := .list none
  next : A → Option A := fun _ => none
  /-- `value_` and `exception_`: at most one of them is ever stored. -/
  stored : Option (Result T E) := none
  awaiter : A → AwaiterPC A := fun _ => .idle
  setter : P → SetterPC A T E := fun _ => .idle
  /-- History: the call whose close succeeded. -/
  closedBy : Option (Call T E) := none
  /-- History: the awaiters that reached `await_resume` before the result was stored. -/
  early : List A := []

/-- The call that closed the list has stored its result in the shared state.
For `Promise<void>::set_value` there is nothing to store. -/
def State.settled (s : State A P T E) : Bool :=
  match s.closedBy with
  | none => false
  | some call => call.result.isNone || s.stored.isSome

inductive Action (A P T E : Type) where
  | call (p : P) (call : Call T E)
  /-- The destructor of the promise. -/
  | destroy (p : P)
  /-- The next step of a setter. -/
  | set (p : P)
  /-- `co_await` of the future. -/
  | await (a : A)
  /-- The next atomic operation of an awaiter; a weak compare_exchange may fail spuriously. -/
  | advance (a : A) (spurious : Bool)
  /-- The scheduler runs the handle of `a`. -/
  | resume (a : A)

def State.goto (s : State A P T E) (a : A) (pc : AwaiterPC A) : State A P T E :=
  { s with awaiter := Function.update s.awaiter a pc }

def State.setGoto (s : State A P T E) (p : P) (pc : SetterPC A T E) : State A P T E :=
  { s with setter := Function.update s.setter p pc }

def State.reach (s : State A P T E) (a : A) : State A P T E :=
  { s with early := if s.settled then s.early else s.early ++ [a] }.goto a .resumed

/-- `LockFreeListNode::push` after it has read this head: a closed list is
reported, so that `await_suspend` returns false and the coroutine goes on. -/
def State.pushSaw (s : State A P T E) (a : A) : Head A → State A P T E
  | .closed => s.reach a
  | .list cur => s.goto a (.attempt cur)

def advance (s : State A P T E) (a : A) (spurious : Bool) : Option (State A P T E) :=
  match s.awaiter a with
  | .awaitReady =>
    match s.waiters with
    | .closed => some (s.reach a)
    | .list _ => some (s.goto a .load)
  | .load => some (s.pushSaw a s.waiters)
  | .attempt cur =>
    let s := { s with next := Function.update s.next a cur }
    if s.waiters = .list cur ∧ spurious = false then
      some ({ s with waiters := .list (some a) }.goto a .suspended)
    else some (s.pushSaw a s.waiters)
  | .idle | .suspended | .scheduled | .resumed => none

def set (s : State A P T E) (p : P) : Option (State A P T E) :=
  match s.setter p with
  | .close call =>
    match s.waiters with
    | .closed => some (s.setGoto p .threw)
    | .list top =>
      let s := { s with waiters := .closed, closedBy := some call }
      match call.result with
      | none => some (s.setGoto p (.resumeAll top))
      | some result => some (s.setGoto p (.store result top))
  | .store result waiters => some ({ s with stored := some result }.setGoto p (.resumeAll waiters))
  | .resumeAll none => some (s.setGoto p .returned)
  | .resumeAll (some node) => some ((s.goto node .scheduled).setGoto p (.resumeAll (s.next node)))
  | .idle | .returned | .threw => none

def step (s : State A P T E) : Action A P T E → Option (State A P T E)
  | .call p call =>
    match s.setter p with
    | .idle => some (s.setGoto p (.close call))
    | _ => none
  | .destroy p =>
    match s.setter p, s.waiters with
    | .idle, .closed => some (s.setGoto p .returned)
    | .idle, .list _ => some (s.setGoto p (.close .brokenPromise))
    | _, _ => none
  | .set p => set s p
  | .await a => if s.awaiter a = .idle then some (s.goto a .awaitReady) else none
  | .advance a spurious => advance s a spurious
  | .resume a => if s.awaiter a = .scheduled then some (s.reach a) else none

abbrev Reaches (allowed : State A P T E → Action A P T E → Prop)
    (labels : List (Action A P T E)) (s : State A P T E) : Prop :=
  Run step allowed {} labels s

inductive Effect (s : State A P T E) : Action A P T E → State A P T E → Prop
  | call (idle : s.setter p = .idle) : Effect s (.call p made) (s.setGoto p (.close made))
  | destroyClosed (idle : s.setter p = .idle) (closed : s.waiters = .closed) :
    Effect s (.destroy p) (s.setGoto p .returned)
  | destroyOpen (idle : s.setter p = .idle) (opened : s.waiters = .list top) :
    Effect s (.destroy p) (s.setGoto p (.close .brokenPromise))
  | lost (at_ : s.setter p = .close made) (closed : s.waiters = .closed) :
    Effect s (.set p) (s.setGoto p .threw)
  | wonVoid (at_ : s.setter p = .close made) (opened : s.waiters = .list top)
    (void : made.result = none) : Effect s (.set p)
    ({ s with waiters := .closed, closedBy := some made }.setGoto p (.resumeAll top))
  | won (at_ : s.setter p = .close made) (opened : s.waiters = .list top)
    (result : made.result = some found) : Effect s (.set p)
    ({ s with waiters := .closed, closedBy := some made }.setGoto p (.store found top))
  | store (at_ : s.setter p = .store result top) :
    Effect s (.set p) ({ s with stored := some result }.setGoto p (.resumeAll top))
  | finished (at_ : s.setter p = .resumeAll none) : Effect s (.set p) (s.setGoto p .returned)
  | woken (at_ : s.setter p = .resumeAll (some node)) :
    Effect s (.set p) ((s.goto node .scheduled).setGoto p (.resumeAll (s.next node)))
  | await (idle : s.awaiter a = .idle) : Effect s (.await a) (s.goto a .awaitReady)
  | ready (at_ : s.awaiter a = .awaitReady) (closed : s.waiters = .closed) :
    Effect s (.advance a spurious) (s.reach a)
  | unready (at_ : s.awaiter a = .awaitReady) (opened : s.waiters = .list top) :
    Effect s (.advance a spurious) (s.goto a .load)
  | load (at_ : s.awaiter a = .load) : Effect s (.advance a spurious) (s.pushSaw a s.waiters)
  | pushed (at_ : s.awaiter a = .attempt cur) (same : s.waiters = .list cur) :
    Effect s (.advance a spurious)
      ({ s with next := Function.update s.next a cur, waiters := .list (some a) }.goto a .suspended)
  | retry (at_ : s.awaiter a = .attempt cur) : Effect s (.advance a spurious)
    ({ s with next := Function.update s.next a cur }.pushSaw a s.waiters)
  | resume (scheduled : s.awaiter a = .scheduled) : Effect s (.resume a) (s.reach a)

theorem effect_of_step {s t : State A P T E} (took : step s label = some t) : Effect s label t := by
  cases label with
  | call p made =>
    simp only [step] at took
    split at took <;> cases took
    exact .call ‹_›
  | destroy p =>
    simp only [step] at took
    split at took <;> cases took
    · exact .destroyClosed ‹_› ‹_›
    · exact .destroyOpen ‹_› ‹_›
  | set p =>
    simp only [step, set] at took
    cases at_ : s.setter p <;> simp only [at_, reduceCtorEq, Option.some.injEq] at took
    case close made =>
      split at took
      · cases took
        exact .lost at_ ‹_›
      · split at took <;> cases took
        · exact .wonVoid at_ ‹_› ‹_›
        · exact .won at_ ‹_› ‹_›
    case store result top => exact took ▸ .store at_
    case resumeAll node =>
      cases node <;> cases took
      · exact .finished at_
      · exact .woken at_
  | await a =>
    obtain ⟨idle, rfl⟩ := of_ite took
    exact .await idle
  | advance a spurious =>
    simp only [step, advance] at took
    cases at_ : s.awaiter a <;> simp only [at_, reduceCtorEq, Option.some.injEq] at took
    case awaitReady =>
      split at took <;> cases took
      · exact .ready at_ ‹_›
      · exact .unready at_ ‹_›
    case load => exact took ▸ .load at_
    case attempt cur =>
      split at took <;> cases took
      · rename_i same
        exact .pushed at_ same.1
      · exact .retry at_
  | resume a =>
    obtain ⟨scheduled, rfl⟩ := of_ite took
    exact .resume scheduled

end Future
end Nitrocoro
