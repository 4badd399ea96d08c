import Nitrocoro.Lib.Transition

/-! `ThreadPool`: threads post tasks, the workers take them off the queue, and the destructor stops
the workers. The workers differ only in where they are, so it is enough to count them. A section
under `mutex_` is one step, and each notification is another one. -/
namespace Nitrocoro.ThreadPool
open Transition
variable {T : Type}

structure State (T : Type) where
  tasks : List T := []
  stop : Bool := false
  /-- The workers that are to lock `mutex_` and test the predicate of `cv_.wait`. -/
  testing : Nat
  waiting : Nat := 0
  running : Nat := 0
  returned : Nat := 0
  /-- The calls of `post` that have not come to `notify_one`. -/
  posting : Nat := 0
  /-- The destructor is behind `notify_all`. -/
  joining : Bool := false
  /-- History: the tasks that were posted, and those that a worker has taken. -/
  posted : List T := []
  taken : List T := []

inductive Action (T : Type) where
  | post (task : T)
  | notifyOne
  | test
  | finish
  /-- `wait` returns without a notification. -/
  | wake
  | stop
  | notifyAll

def workers (threadNum hardwareConcurrency : Nat) : Nat :=
  if threadNum = 0 then min (max hardwareConcurrency 1) 8 else threadNum

namespace State

def test (s : State T) : State T :=
  let s := { s with testing := s.testing - 1 }
  if s.stop then { s with returned := s.returned + 1 }
  else
    match s.tasks with
    | [] => { s with waiting := s.waiting + 1 }
    | task :: tasks => { s with tasks, running := s.running + 1, taken := s.taken ++ [task] }

def wake (s : State T) : State T :=
  if 0 < s.waiting then { s with waiting := s.waiting - 1, testing := s.testing + 1 } else s

def step (s : State T) : Action T → Option (State T)
  | .post task =>
    some { s with
      tasks := s.tasks ++ [task]
      posting := s.posting + 1
      posted := s.posted ++ [task] }
  | .notifyOne => if 0 < s.posting then some { s.wake with posting := s.posting - 1 } else none
  | .test => if 0 < s.testing then some s.test else none
  | .finish =>
    if 0 < s.running then some { s with running := s.running - 1, testing := s.testing + 1 }
    else none
  | .wake => if 0 < s.waiting then some s.wake else none
  | .stop => if s.stop = false then some { s with stop := true } else none
  | .notifyAll =>
    if s.stop then some { s with testing := s.testing + s.waiting, waiting := 0, joining := true }
    else none

end State

abbrev Reaches (n : Nat) (labels : List (Action T)) (s : State T) : Prop :=
  Run State.step free { testing := n } labels s

/-- A task that is in the queue behind its `notify_one` has a worker that does not wait. -/
structure Inv (n : Nat) (s : State T) : Prop where
  order : s.posted = s.taken ++ s.tasks
  all : s.testing + s.waiting + s.running + s.returned = n
  alive : s.stop = false → s.returned = 0
  awake : s.stop = false → s.tasks ≠ [] → s.posting = 0 → 0 < s.testing + s.running
  woken : s.joining → s.stop ∧ s.waiting = 0

variable {s t : State T} {n : Nat}

theorem Inv.start (n : Nat) : Inv n ({ testing := n } : State T) :=
  ⟨rfl, rfl, fun _ => rfl, fun _ some => absurd rfl some, nofun⟩

theorem Inv.test (inv : Inv n s) (here : 0 < s.testing) : Inv n s.test := by
  obtain ⟨order, all, alive, awake, woken⟩ := inv
  unfold State.test
  cases stopped : s.stop with
  | true => constructor <;> grind
  | false =>
    have quiet : s.joining = false := by
      by_contra joining
      simp [woken (Bool.not_eq_false _ ▸ joining)] at stopped
    cases first : s.tasks with
    | nil | cons => constructor <;> grind

theorem Inv.step (inv : Inv n s) (some_worker : 0 < n) (took : s.step label = some t) : Inv n t := by
  cases label with
  | test =>
    obtain ⟨here, rfl⟩ := of_ite took
    exact inv.test here
  | post task =>
    cases took
    obtain ⟨order, all, alive, awake, woken⟩ := inv
    exact ⟨by rw [order, List.append_assoc], all, alive, nofun, woken⟩
  | notifyOne | finish | wake | stop | notifyAll =>
    obtain ⟨here, rfl⟩ := of_ite took
    obtain ⟨order, all, alive, awake, woken⟩ := inv
    constructor <;> grind [State.wake]

theorem workers_pos (threadNum hardwareConcurrency : Nat) :
    0 < workers threadNum hardwareConcurrency := by
  unfold workers
  split <;> omega

theorem stopped_step (stopped : s.stop) (took : s.step label = some t) :
    t.stop ∧ t.taken = s.taken := by
  cases label with
  | test =>
    obtain ⟨-, rfl⟩ := of_ite took
    simp [State.test, stopped]
  | post =>
    cases took
    exact ⟨stopped, rfl⟩
  | notifyOne | finish | wake | stop | notifyAll =>
    obtain ⟨-, rfl⟩ := of_ite took
    grind [State.wake]

/-- The workers take the tasks in the order in which they were posted, each once, and none after
the destructor has set `stop_`. No task is left to workers that sleep: when no `post` is under way,
a worker takes the first one by its own steps. Nobody sleeps behind `notify_all`, so that the
workers can be joined. -/
theorem tasks_taken_in_order {threadNum hardwareConcurrency : Nat}
    (run : Reaches (workers threadNum hardwareConcurrency) labels s) :
    s.posted = s.taken ++ s.tasks ∧
    (∀ task rest, s.stop = false → s.posting = 0 → s.tasks = task :: rest →
      ∃ own t, (own = [.test] ∨ own = [.finish, .test]) ∧ exec State.step s own = some t ∧
        t.taken = s.taken ++ [task]) ∧
    (s.stop → ∀ more t, Run State.step free s more t → t.taken = s.taken) ∧
    (s.joining → s.waiting = 0) := by
  have inv := run.invariant (Inv.start _) fun inv _ took => inv.step (workers_pos ..) took
  refine ⟨inv.order, fun task rest open_ quiet first => ?_, fun stopped more t later => ?_,
    fun joining => (inv.woken joining).2⟩
  · have awake := inv.awake open_ (by simp [first]) quiet
    by_cases here : 0 < s.testing
    · refine ⟨_, s.test, .inl rfl, by simp [exec, State.step, here], ?_⟩
      simp [State.test, open_, first]
    · have busy : 0 < s.running := by omega
      let done : State T := { s with running := s.running - 1, testing := s.testing + 1 }
      refine ⟨_, done.test, .inr rfl, by simp [exec, State.step, busy, done], ?_⟩
      simp [State.test, open_, first, done]
  · have kept := later.invariant (P := fun t => t.stop ∧ t.taken = s.taken) ⟨stopped, rfl⟩
      fun holds _ took => (stopped_step holds.1 took).imp_right (·.trans holds.2)
    exact kept.2

/-- Two workers wait when two tasks are posted. -/
theorem tasks_taken_in_order_two : ∃ s, Reaches (workers 2 8)
      [.test, .test, .post 'a', .post 'b', .notifyOne, .notifyOne] s ∧
    ∃ own t, (own = [.test] ∨ own = [.finish, .test]) ∧ exec State.step s own = some t ∧
      t.taken = ['a'] := by
  have run : Reaches (workers 2 8)
    [.test, .test, .post 'a', .post 'b', .notifyOne, .notifyOne] _ := .of_exec rfl
  exact ⟨_, run, (tasks_taken_in_order run).2.1 'a' ['b'] rfl rfl rfl⟩

end Nitrocoro.ThreadPool
