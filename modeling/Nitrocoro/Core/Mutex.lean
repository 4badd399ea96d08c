import Nitrocoro.Lib.Transition
import Mathlib.Logic.Function.Basic

/-! The coroutine mutex, one atomic operation a step. `Id` names the awaiter of
a lock request: `this` of `CoroMutexAwaiter`, whose address may be used again once
the request is over. A coroutine has one request in progress at a time. -/
namespace Nitrocoro.Mutex
variable {Id : Type} [DecidableEq Id]

/-- The three uses of `state_`: `unlockedValue()`, `nullptr` for locked without
pushed waiters, or the awaiter that was pushed last. -/
inductive Word (Id : Type) where
  | unlocked
  | null
  | awaiter (top : Id)
  deriving DecidableEq

/-- `static_cast<CoroMutexAwaiter *>` of a value of `state_`. -/
def Word.pointer : Word Id → Option Id
  | .awaiter top => some top
  | .unlocked | .null => none

/-- The operation that a request performs next. -/
inductive PC (Id : Type) where
  /-- Not using the mutex. -/
  | idle
  /-- The compare_exchange_strong of a `try_lock()` call. -/
  | tryLock
  /-- The same operation, called by `await_ready`. -/
  | awaitReady
  /-- `asynclockImpl`: the first load of `state_`. -/
  | load
  /-- `asynclockImpl`: the loop body with this `oldValue`. -/
  | attempt (oldValue : Word Id)
  /-- `await_suspend` returned true. -/
  | suspended
  /-- `unlock` passed the handle to the scheduler (or to `resume`). -/
  | scheduled
  /-- After a successful lock or a resumption. -/
  | holding
  /-- `unlock`: the read of `waiters_`. -/
  | unlock
  /-- `unlock`: the load of `state_`. -/
  | unlockLoad
  /-- `unlock`: compare_exchange_strong from `nullptr` to `unlockedValue()`. -/
  | unlockRelease
  /-- `unlock`: the exchange with `nullptr`. -/
  | unlockTake
  /-- `unlock`: the reversing loop with these `waitersHead` and `waiter`. -/
  | reverse (waitersHead : Option Id) (waiter : Id)
  /-- `unlock`: `waiters_ = waitersHead->next_`. -/
  | setWaiters (waitersHead : Id)
  /-- `unlock`: scheduling the handle of this awaiter. -/
  | wake (waitersHead : Id)
  deriving DecidableEq

structure State (Id : Type) where
  state : Word Id := .unlocked
  waiters : Option Id := none
  next : Id → Option Id := fun _ => none
  pc : Id → PC Id := fun _ => .idle
  /-- History: the requests whose push onto `state_` succeeded, in that order. -/
  pushed : List Id := []
  /-- History: the resumptions of suspended requests, in the order they happened. -/
  resumed : List Id := []
  /-- An assertion failed, a null pointer was read or a handle that is not
  suspended was scheduled. -/
  failed : Bool := false

inductive Action (Id : Type) where
  /-- `lock()` or `scoped_lock()` is awaited. -/
  | lock (i : Id)
  | tryLock (i : Id)
  /-- `unlock()`, called by the holder (also by the guard of `scoped_lock`). -/
  | unlock (i : Id)
  /-- The next atomic operation of `i`; a weak compare_exchange may fail spuriously. -/
  | advance (i : Id) (spurious : Bool)
  /-- The scheduler runs the handle of `i`. -/
  | resume (i : Id)

def State.goto (s : State Id) (i : Id) (pc : PC Id) : State Id :=
  { s with pc := Function.update s.pc i pc }

/-- `compare_exchange_strong(unlockedValue(), nullptr)`. -/
def State.tryAcquire (s : State Id) (i : Id) (otherwise : PC Id) : State Id :=
  if s.state = .unlocked then { s with state := .null }.goto i .holding else s.goto i otherwise

/-- One turn of the loop in `asynclockImpl`. The awaiter's `next_` is written
before the compare_exchange_weak, which reloads `oldValue` when it fails. -/
def State.asynclock (s : State Id) (i : Id) (oldValue : Word Id) (spurious : Bool) : State Id :=
  match oldValue with
  | .unlocked =>
    if s.state = oldValue ∧ spurious = false then { s with state := .null }.goto i .holding
    else s.goto i (.attempt s.state)
  | _ =>
    let s := { s with next := Function.update s.next i oldValue.pointer }
    if s.state = oldValue ∧ spurious = false then
      { s with state := .awaiter i, pushed := s.pushed ++ [i] }.goto i .suspended
    else s.goto i (.attempt s.state)

/-- The exchange of `unlock` and the two assertions on the value it returns. -/
def State.take (s : State Id) (i : Id) : State Id :=
  match s.state with
  | .awaiter top => { s with state := .null }.goto i (.reverse none top)
  | .unlocked | .null => { s with state := .null, failed := true }

/-- One turn of the do-while loop of `unlock`. -/
def State.reverseOne (s : State Id) (i : Id) (waitersHead : Option Id) (waiter : Id) : State Id :=
  let temp := s.next waiter
  let s := { s with next := Function.update s.next waiter waitersHead }
  match temp with
  | none => s.goto i (.setWaiters waiter)
  | some waiter' => s.goto i (.reverse (some waiter) waiter')

/-- The handle is passed on and the unlocking request is over. -/
def State.wakeUp (s : State Id) (i waitersHead : Id) : State Id :=
  if s.pc waitersHead = .suspended then (s.goto i .idle).goto waitersHead .scheduled
  else { s with failed := true }

def advance (s : State Id) (i : Id) (spurious : Bool) : Option (State Id) :=
  match s.pc i with
  | .tryLock => some (s.tryAcquire i .idle)
  | .awaitReady => some (s.tryAcquire i .load)
  | .load => some (s.goto i (.attempt s.state))
  | .attempt oldValue => some (s.asynclock i oldValue spurious)
  | .unlock =>
    match s.waiters with
    | none => some (s.goto i .unlockLoad)
    | some waitersHead => some (s.goto i (.setWaiters waitersHead))
  | .unlockLoad =>
    if s.state = .null then some (s.goto i .unlockRelease) else some (s.goto i .unlockTake)
  | .unlockRelease =>
    if s.state = .null then some ({ s with state := .unlocked }.goto i .idle)
    else some (s.goto i .unlockTake)
  | .unlockTake => some (s.take i)
  | .reverse waitersHead waiter => some (s.reverseOne i waitersHead waiter)
  | .setWaiters waitersHead =>
    some ({ s with waiters := s.next waitersHead }.goto i (.wake waitersHead))
  | .wake waitersHead => some (s.wakeUp i waitersHead)
  | .idle | .suspended | .scheduled | .holding => none

def step (s : State Id) : Action Id → Option (State Id)
  | .lock i => if s.pc i = .idle then some (s.goto i .awaitReady) else none
  | .tryLock i => if s.pc i = .idle then some (s.goto i .tryLock) else none
  | .unlock i =>
    if s.pc i = .holding then
      -- assert(state_.load(std::memory_order_relaxed) != unlockedValue())
      some ({ s with failed := s.failed || decide (s.state = Word.unlocked) }.goto i .unlock)
    else none
  | .advance i spurious => advance s i spurious
  | .resume i =>
    if s.pc i = .scheduled then some ({ s with resumed := s.resumed ++ [i] }.goto i .holding)
    else none

abbrev Reaches (labels : List (Action Id)) (s : State Id) : Prop :=
  Transition.Run step Transition.free {} labels s

end Nitrocoro.Mutex
