import Nitrocoro.Lib.Transition
import Nitrocoro.Lib.LinkedList

/-! `MpscQueue`, with any number of producers and one consumer. Every access to `tail_`, to
`head_` or to the `next` of a node is one step, in the order of the code. Nodes are named in the
order of their allocation; the stub of the constructor is node 0. -/
namespace Nitrocoro.MpscQueue
variable {Id T : Type} [DecidableEq Id]

inductive PushPC where
  | idle
  /-- `tail_.exchange`. -/
  | exchange (node : Nat)
  /-- The store to `prev->next`. -/
  | link (prev node : Nat)
  deriving DecidableEq

inductive PopPC (T : Type) where
  | idle
  /-- The load of `head->next`. -/
  | loadNext (head : Nat)
  /-- The store to `head_`, with the value that was moved out of `next`. -/
  | storeHead (head next : Nat) (value : T)
  /-- `delete head`, and the return of the value. -/
  | delete (head : Nat) (value : T)
  deriving DecidableEq

structure State (Id T : Type) where
  head : Nat := 0
  tail : Nat := 0
  value : Nat → Option T := fun _ => none
  next : Nat → Option Nat := fun _ => none
  /-- The next allocation. -/
  fresh : Nat := 1
  push : Id → PushPC := fun _ => .idle
  pop : PopPC T := .idle
  deleted : List Nat := []
  /-- History: the nodes and their values in the order of the exchanges of `tail_`. -/
  order : List Nat := []
  pushed : List T := []
  /-- History: the values that pops have returned. -/
  popped : List T := []

inductive Action (Id T : Type) where
  /-- A call of `push`, up to its exchange. -/
  | push (i : Id) (value : T)
  /-- The next step of a producer. -/
  | advance (i : Id)
  /-- The next step of the consumer, which calls `pop` again and again. -/
  | consume

namespace State

def goto (s : State Id T) (i : Id) (pc : PushPC) : State Id T :=
  { s with push := Function.update s.push i pc }

def advance (s : State Id T) (i : Id) : Option (State Id T) :=
  match s.push i with
  | .idle => none
  | .exchange node =>
    some ({ s with
      tail := node
      order := s.order ++ [node]
      pushed := s.pushed ++ (s.value node).toList }.goto i (.link s.tail node))
  | .link prev node =>
    some ({ s with next := Function.update s.next prev (some node) }.goto i .idle)

def consume (s : State Id T) : Option (State Id T) :=
  match s.pop with
  | .idle => some { s with pop := .loadNext s.head }
  | .loadNext head =>
    match s.next head with
    | none => some { s with pop := .idle }
    | some next => (s.value next).map fun value => { s with pop := .storeHead head next value }
  | .storeHead head next value => some { s with head := next, pop := .delete head value }
  | .delete head value =>
    some { s with
      pop := .idle
      deleted := s.deleted ++ [head]
      popped := s.popped ++ [value] }

def step (s : State Id T) : Action Id T → Option (State Id T)
  | .push i value =>
    match s.push i with
    | .idle =>
      some ({ s with
        value := Function.update s.value s.fresh (some value)
        next := Function.update s.next s.fresh none
        fresh := s.fresh + 1 }.goto i (.exchange s.fresh))
    | _ => none
  | .advance i => s.advance i
  | .consume => s.consume

/-- What the next step of the consumer returns from `pop`, if it returns. -/
def returned (s : State Id T) : Option (Option T) :=
  match s.pop with
  | .loadNext head => if (s.next head).isNone then some none else none
  | .delete _ value => some (some value)
  | .idle | .storeHead .. => none

def empty (s : State Id T) : Bool := (s.next s.head).isNone

/-- The nodes whose values were not popped yet, in the order of their exchanges. -/
def waiting (s : State Id T) : List Nat := s.order.drop s.popped.length

/-- A push of this node is between its exchange and its store. -/
def Unlinked (s : State Id T) (node : Nat) : Prop := ∃ i prev, s.push i = .link prev node

/-- The push of this node is finished, and its value was not popped yet. -/
def Finished (s : State Id T) (node : Nat) : Prop := node ∈ s.waiting ∧ ¬ s.Unlinked node

end State

/-- A run of any number of producers and the consumer from the constructed queue. -/
abbrev Reaches (labels : List (Action Id T)) (s : State Id T) : Prop :=
  Transition.Run State.step Transition.free {} labels s

end Nitrocoro.MpscQueue
