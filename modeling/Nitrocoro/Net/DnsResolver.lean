import Mathlib.Logic.Function.Basic
import Nitrocoro.Lib.Transition

/-! `DnsResolver`: calls of `resolve` on any number of threads, and the `doResolve` tasks that the
workers of the task queue run. Each section under `mutex`, the post of a task, the call of
`getaddrinfo` and each answered promise is a step of its own. Which task a worker takes next, what
`getaddrinfo` returns and how the clock advances is up to the environment. -/
namespace Nitrocoro.Net.DnsResolver
open Function

-- `C` names the calls of `resolve`, and the task that a call posts; `A` are the addresses
variable {C A : Type} [DecidableEq C]

structure Query where
  hostname : String
  service : String
  family : Int
  deriving DecidableEq

def cacheKey (q : Query) : String := q.hostname ++ "|" ++ q.service ++ "|" ++ toString q.family

structure AddrInfo (A : Type) where
  inet : Bool
  addr : Option A

/-- What `getaddrinfo` returns, with `res` null or a list. -/
structure Found (A : Type) where
  error : Int
  res : Option (List (AddrInfo A))

/-- `DnsException`. -/
structure Failure where
  message : String
  code : Int
  deriving DecidableEq

abbrev Outcome (A : Type) := Except Failure (List A)

def addresses (res : List (AddrInfo A)) : List A :=
  res.filterMap fun p => if p.inet then p.addr else none

/-- The body of `doResolve` up to its section under the lock, with `gai_strerror`. -/
def outcome (strerror : Int → String) (found : Found A) : Outcome A :=
  match found.res with
  | none => .error ⟨"no result", found.error⟩
  | some res =>
    if found.error ≠ 0 then .error ⟨strerror found.error, found.error⟩
    else if (addresses res).isEmpty then .error ⟨"no usable addresses", 0⟩
    else .ok (addresses res)

structure CacheEntry (A : Type) where
  addresses : List A
  expiry : Int

/-- `resolveImpl`. -/
inductive CallerPC where
  | idle
  /-- `resolve` has made the weak pointer to its state. -/
  | called
  /-- The state was gone: `co_return {}`. -/
  | gone
  /-- Before the section under the lock, with the time that was read. -/
  | entered (now : Int)
  /-- `newTask` is set. -/
  | posting
  /-- `co_await future.get()`. -/
  | waiting
  | returned
  deriving DecidableEq

/-- `doResolve`. -/
inductive TaskPC (C A : Type) where
  | none
  | queued
  /-- In `getaddrinfo`. -/
  | resolving
  /-- The state is locked, and the outcome is known; `now` was read for a success. -/
  | resolved (outcome : Outcome A) (now : Int)
  /-- Behind the section that takes the waiters: the count of the writes of the cache. -/
  | counting (addresses : List A) (now : Int) (waiters : List C)
  /-- Old entries are expired. -/
  | expiring (addresses : List A) (now : Int) (waiters : List C)
  | answering (outcome : Outcome A) (waiters : List C)
  | returned

inductive Ref (C : Type) where
  | resolver
  | caller (c : C)
  | task (c : C)
  deriving DecidableEq

structure State (C A : Type) where
  ttl : Int
  now : Int := 0
  refs : List (Ref C) := [.resolver]
  writeCount : UInt32 := 0
  cache : String → Option (CacheEntry A) := fun _ => none
  pending : String → Option (List C) := fun _ => none
  expiryQueue : List (Int × String) := []
  query : C → Query := fun _ => ⟨"", "", 0⟩
  caller : C → CallerPC := fun _ => .idle
  task : C → TaskPC C A := fun _ => .none
  /-- History: the task whose waiter a call became, the outcome of each task, and the answers that
  each call got. -/
  joined : C → Option C := fun _ => none
  outcome : C → Option (Outcome A) := fun _ => none
  answers : C → List (Outcome A) := fun _ => []

inductive Action (C A : Type) where
  | call (c : C) (q : Query)
  /-- `weakState.lock()`, and the clock is read. -/
  | enter (c : C)
  /-- The section of `resolveImpl` under the lock. -/
  | lookup (c : C)
  | post (c : C)
  /-- `resolveImpl` returns. -/
  | resume (c : C)
  /-- A worker takes the task. -/
  | take (c : C)
  /-- `getaddrinfo` returns, and the task locks the state. -/
  | found (c : C) (found : Found A)
  /-- The section of `doResolve` under the lock. -/
  | settle (c : C)
  | count (c : C)
  | expire (c : C)
  | answer (c : C)
  /-- `~DnsResolver`. -/
  | destroy
  | tick (later : Nat)

namespace State

def key (s : State C A) (c : C) : String := cacheKey (s.query c)

def setCaller (s : State C A) (c : C) (pc : CallerPC) : State C A :=
  { s with caller := update s.caller c pc }

def setTask (s : State C A) (c : C) (pc : TaskPC C A) : State C A :=
  { s with task := update s.task c pc }

def setPending (s : State C A) (k : String) (waiters : Option (List C)) : State C A :=
  { s with pending := update s.pending k waiters }

def setPromise (s : State C A) (c : C) (outcome : Outcome A) : State C A :=
  { s with answers := update s.answers c (s.answers c ++ [outcome]) }

def join (s : State C A) (c task : C) : State C A :=
  { s with joined := update s.joined c (some task) }

def hit (s : State C A) (k : String) (now : Int) : Option (List A) :=
  match s.cache k with
  | some entry => if now < entry.expiry then some entry.addresses else none
  | none => none

def lookup (s : State C A) (c : C) (now : Int) : State C A :=
  match s.hit (s.key c) now with
  | some addresses => (s.setPromise c (.ok addresses)).setCaller c .waiting
  | none =>
    match s.pending (s.key c) with
    | some waiters =>
      ((s.setPending (s.key c) (some (waiters ++ [c]))).join c (waiters.headD c)).setCaller c
        .waiting
    | none => ((s.setPending (s.key c) (some [c])).join c c).setCaller c .posting

/-- `weakState.lock()` and the body of `doResolve` up to its section under the lock. -/
def found (strerror : Int → String) (s : State C A) (c : C) (found : Found A) : State C A :=
  if s.refs.isEmpty then s.setTask c .returned
  else
    { s with
      refs := s.refs ++ [Ref.task c]
      outcome := update s.outcome c
        (some (DnsResolver.outcome strerror found)) }.setTask c
      (.resolved (DnsResolver.outcome strerror found) s.now)

def taken (outcome : Outcome A) (now : Int) (waiters : List C) : TaskPC C A :=
  match outcome with
  | .ok addresses => .counting addresses now waiters
  | .error e => .answering (.error e) waiters

def store (s : State C A) (k : String) (now : Int) : Outcome A → State C A
  | .ok addresses =>
    { s with
      cache := update s.cache k (some ⟨addresses, now + s.ttl⟩)
      expiryQueue := s.expiryQueue ++ [(now + s.ttl, k)] }
  | .error _ => s

def settle (s : State C A) (c : C) (outcome : Outcome A) (now : Int) : State C A :=
  let waiters := (s.pending (s.key c)).getD []
  ((s.store (s.key c) now outcome).setPending (s.key c) none).setTask c (taken outcome now waiters)

/-- The loop over `expiryQueue`. -/
def expire (s : State C A) (now : Int) : State C A :=
  let old := s.expiryQueue.filter fun entry => entry.1 ≤ now
  { s with
    expiryQueue := s.expiryQueue.filter fun entry => now < entry.1
    cache := fun k => (s.cache k).filter fun entry =>
      !(old.any (fun popped => popped.2 == k) && decide (entry.expiry ≤ now)) }

def step (strerror : Int → String) (s : State C A) : Action C A → Option (State C A)
  | .call c q =>
    if s.caller c = .idle ∧ .resolver ∈ s.refs then
      some ({ s with query := update s.query c q }.setCaller c .called)
    else none
  | .enter c =>
    if s.caller c = .called then
      if s.refs.isEmpty then some (s.setCaller c .gone)
      else some ({ s with refs := s.refs ++ [Ref.caller c] }.setCaller c (.entered s.now))
    else none
  | .lookup c =>
    match s.caller c with
    | .entered now => some (s.lookup c now)
    | _ => none
  | .post c =>
    if s.caller c = .posting then some ((s.setTask c .queued).setCaller c .waiting) else none
  | .resume c =>
    if s.caller c = .waiting ∧ s.answers c ≠ [] then
      some ({ s with refs := s.refs.erase (.caller c) }.setCaller c .returned)
    else none
  | .take c =>
    match s.task c with
    | .queued => some (s.setTask c .resolving)
    | _ => none
  | .found c result =>
    match s.task c with
    | .resolving => some (s.found strerror c result)
    | _ => none
  | .settle c =>
    match s.task c with
    | .resolved outcome now => some (s.settle c outcome now)
    | _ => none
  | .count c =>
    match s.task c with
    | .counting addresses now waiters =>
      some ({ s with writeCount := s.writeCount + 1 }.setTask c
        (if s.writeCount &&& 15 = 0 then .expiring addresses now waiters
          else .answering (.ok addresses) waiters))
    | _ => none
  | .expire c =>
    match s.task c with
    | .expiring addresses now waiters =>
      some ((s.expire now).setTask c (.answering (.ok addresses) waiters))
    | _ => none
  | .answer c =>
    match s.task c with
    | .answering outcome (waiter :: waiters) =>
      some ((s.setPromise waiter outcome).setTask c (.answering outcome waiters))
    | .answering _ [] => some ({ s with refs := s.refs.erase (.task c) }.setTask c .returned)
    | _ => none
  | .destroy =>
    if .resolver ∈ s.refs then some { s with refs := s.refs.erase .resolver } else none
  | .tick later => some { s with now := s.now + later }

end State

abbrev Reaches (strerror : Int → String) (ttl : Int) (labels : List (Action C A))
    (s : State C A) : Prop :=
  Transition.Run (State.step strerror) Transition.free { ttl } labels s

end Nitrocoro.Net.DnsResolver
