import Mathlib.Data.List.Count
import Nitrocoro.Lib.Transition
import Nitrocoro.Lib.LinkedList

/-! A stack of nodes that is closed once. Any number of pushers add themselves with a
compare-and-swap loop, any number of closers exchange the head with a closed mark, and the one
that gets the nodes walks over them. Every pusher goes past it once: it is refused by the closed
stack, or it waits and the walk wakes it. -/
namespace OneShot
open Function List
variable {A P : Type}

inductive Event (A P : Type) where
  /-- The walk reaches the node of a waiting pusher. -/
  | woken (a : A)
  /-- A pusher finds the stack closed. -/
  | passed (a : A)
  /-- A closer finds the stack open, and gets its nodes. -/
  | won (p : P)
  /-- A closer finds the stack closed. -/
  | lost (p : P)
  deriving DecidableEq

def Event.isWon : Event A P → Bool
  | .won _ => true
  | _ => false

inductive Pusher (A : Type) where
  | idle
  | looking
  /-- The compare-and-swap with this expected top. -/
  | attempt (cur : Option A)
  | waiting
  | woken
  | passed
  deriving DecidableEq

inductive Closer (A : Type) where
  | idle
  | walk (node : Option A)
  | finished
  | lost
  deriving DecidableEq

structure State (A P : Type) where
  /-- The top of the stack; `none` is the closed mark. -/
  head : Option (Option A) := some none
  next : A → Option A := fun _ => none
  pusher : A → Pusher A := fun _ => .idle
  closer : P → Closer A := fun _ => .idle
  history : List (Event A P) := []

inductive Action (A P : Type) where
  | begin (a : A)
  /-- A load of the head, or a compare-and-swap that fails. -/
  | look (a : A)
  /-- The pusher writes the pointer of its node. -/
  | link (a : A) (value : Option A)
  /-- A compare-and-swap that succeeds. -/
  | push (a : A)
  | close (p : P)
  /-- A load of the head that finds it closed, by a closer. -/
  | observe (p : P)
  | walk (p : P)

variable [DecidableEq A] [DecidableEq P]

namespace State

def setPusher (s : State A P) (a : A) (pc : Pusher A) : State A P :=
  { s with pusher := update s.pusher a pc }

def setCloser (s : State A P) (p : P) (pc : Closer A) : State A P :=
  { s with closer := update s.closer p pc }

def log (s : State A P) (event : Event A P) : State A P :=
  { s with history := s.history ++ [event] }

def look (s : State A P) (a : A) : State A P :=
  match s.head with
  | none => (s.setPusher a .passed).log (.passed a)
  | some top => s.setPusher a (.attempt top)

def step (s : State A P) : Action A P → Option (State A P)
  | .begin a => if s.pusher a = .idle then some (s.setPusher a .looking) else none
  | .look a =>
    match s.pusher a with
    | .looking => some (s.look a)
    | .attempt _ => some (s.look a)
    | _ => none
  | .link a value =>
    match s.pusher a with
    | .attempt _ => some { s with next := update s.next a value }
    | _ => none
  | .push a =>
    if s.pusher a = .attempt (s.next a) ∧ s.head = some (s.next a) then
      some ({ s with head := some (some a) }.setPusher a .waiting)
    else none
  | .close p =>
    if s.closer p = .idle then
      match s.head with
      | none => some ((s.setCloser p .lost).log (.lost p))
      | some top => some (({ s with head := none }.setCloser p (.walk top)).log (.won p))
    else none
  | .observe p =>
    if s.closer p = .idle ∧ s.head = none then some ((s.setCloser p .lost).log (.lost p)) else none
  | .walk p =>
    match s.closer p with
    | .walk none => some (s.setCloser p .finished)
    | .walk (some a) =>
      some (((s.setPusher a .woken).setCloser p (.walk (s.next a))).log (.woken a))
    | _ => none

variable {s : State A P} {p : P}

theorem step_close_lost (idle : s.closer p = .idle) (closed : s.head = none) :
    s.step (.close p) = some ((s.setCloser p .lost).log (.lost p)) := by
  simp only [step, if_pos idle, closed]

theorem step_close_won (idle : s.closer p = .idle) (opened : s.head = some top) :
    s.step (.close p) =
      some (({ s with head := none }.setCloser p (.walk top)).log (.won p)) := by
  simp only [step, if_pos idle, opened]

theorem step_walk_finished (walking : s.closer p = .walk none) :
    s.step (.walk p) = some (s.setCloser p .finished) := by
  simp only [step, walking]

theorem step_walk_woken (walking : s.closer p = .walk (some a)) : s.step (.walk p) =
      some (((s.setPusher a .woken).setCloser p (.walk (s.next a))).log (.woken a)) := by
  simp only [step, walking]

end State

def Closer.won : Closer A → Bool
  | .walk _ => true
  | .finished => true
  | _ => false

/-- The waiting pushers are the nodes of the stack, or those that the walk has still to reach. -/
def Holds (s : State A P) (nodes : List A) : Prop :=
  match s.head with
  | some top => LinkedList.Chain s.next top nodes ∧ ∀ p, s.closer p = .idle
  | none => ∃ p, s.closer p = .finished ∧ nodes = [] ∨
      ∃ node, s.closer p = .walk node ∧ LinkedList.Chain s.next node nodes

/-- What the history has to do with where everybody is. -/
structure Told (s : State A P) : Prop where
  woken : ∀ a, s.history.count (.woken a) = if s.pusher a = .woken then 1 else 0
  passed : ∀ a, s.history.count (.passed a) = if s.pusher a = .passed then 1 else 0
  won : ∀ p, s.history.count (.won p) = if (s.closer p).won then 1 else 0
  lost : ∀ p, s.history.count (.lost p) = if s.closer p = .lost then 1 else 0
  closed : s.history.countP Event.isWon = if s.head = none then 1 else 0

structure Inv (s : State A P) : Prop where
  nodes : ∃ nodes : List A, nodes.Nodup ∧ (∀ a, s.pusher a = .waiting ↔ a ∈ nodes) ∧ Holds s nodes
  single : ∀ p q, (s.closer p).won → (s.closer q).won → p = q
  told : Told s

variable {s t : State A P} {a : A} {p : P}

namespace Told

section
variable (told : Told s)
include told

theorem setPusher (was : s.pusher a ≠ .woken ∧ s.pusher a ≠ .passed)
    (now : pc ≠ .woken ∧ pc ≠ .passed) : Told (s.setPusher a pc) := by
  obtain ⟨woken, passed, won, lost, closed⟩ := told
  refine ⟨fun b => ?_, fun b => ?_, won, lost, closed⟩
  · simp only [State.setPusher]
    grind
  · simp only [State.setPusher]
    grind

theorem settle (was : s.pusher a ≠ .woken ∧ s.pusher a ≠ .passed)
    (how : pc = .woken ∧ event = .woken a ∨ pc = .passed ∧ event = .passed a) :
    Told ((s.setPusher a pc).log event) := by
  obtain ⟨woken, passed, won, lost, closed⟩ := told
  simp only [State.setPusher, State.log]
  rcases how with ⟨rfl, rfl⟩ | ⟨rfl, rfl⟩
  all_goals
    refine ⟨fun b => ?_, fun b => ?_, fun p => ?_, fun p => ?_, ?_⟩
    · grind
    · grind
    · simpa [count_singleton] using won p
    · simpa [count_singleton] using lost p
    · simpa [Event.isWon] using closed

theorem pass (was : s.pusher a ≠ .woken ∧ s.pusher a ≠ .passed) :
    Told ((s.setPusher a .passed).log (.passed a)) :=
  told.settle was (.inr ⟨rfl, rfl⟩)

theorem lose (idle : s.closer p = .idle) : Told ((s.setCloser p .lost).log (.lost p)) := by
  obtain ⟨woken, passed, won, lost, closed⟩ := told
  simp only [State.setCloser, State.log]
  refine ⟨fun b => ?_, fun b => ?_, fun q => ?_, fun q => ?_, ?_⟩
  · simpa [count_singleton] using woken b
  · simpa [count_singleton] using passed b
  · grind [Closer.won]
  · grind
  · simpa [Event.isWon] using closed

theorem win (idle : s.closer p = .idle) (opened : s.head = some top) :
    Told (({ s with head := none }.setCloser p (.walk top)).log (.won p)) := by
  obtain ⟨woken, passed, won, lost, closed⟩ := told
  simp only [State.setCloser, State.log]
  refine ⟨fun b => ?_, fun b => ?_, fun q => ?_, fun q => ?_, ?_⟩
  · simpa [count_singleton] using woken b
  · simpa [count_singleton] using passed b
  · grind [Closer.won]
  · grind
  · simp [Event.isWon, closed, opened]

theorem setCloser (was : (s.closer p).won) (now : c.won) : Told (s.setCloser p c) := by
  obtain ⟨woken, passed, won, lost, closed⟩ := told
  refine ⟨woken, passed, fun q => ?_, fun q => ?_, closed⟩
  · simp only [State.setCloser]
    grind
  · simp only [State.setCloser]
    grind [Closer.won]

theorem wake (waiting : s.pusher a = .waiting) : Told ((s.setPusher a .woken).log (.woken a)) :=
  told.settle (by rw [waiting]; exact ⟨nofun, nofun⟩) (.inl ⟨rfl, rfl⟩)

end

end Told

namespace Inv

theorem start : Inv ({} : State A P) where
  nodes := ⟨[], nodup_nil, by simp, rfl, fun _ => rfl⟩
  single _ _ won := by cases won
  told := ⟨fun _ => rfl, fun _ => rfl, fun _ => rfl, fun _ => rfl, rfl⟩

section
variable (inv : Inv s)
include inv

theorem setPusher (was : s.pusher a ≠ .waiting) (now : c ≠ .waiting)
    (told : Told t) (same : t.pusher = update s.pusher a c) (head : t.head = s.head)
    (next : t.next = s.next) (closer : t.closer = s.closer) : Inv t := by
  obtain ⟨nodes, nodup, waiting, holds⟩ := inv.nodes
  refine ⟨⟨nodes, nodup, fun b => ?_, ?_⟩, ?_, told⟩
  · rw [same, update_apply, ← waiting b]
    split
    · rename_i here
      subst here
      exact ⟨fun at_ => absurd at_ now, fun at_ => absurd at_ was⟩
    · rfl
  · unfold Holds at holds ⊢
    rwa [head, next, closer]
  · rw [closer]
    exact inv.single

theorem look (was : s.pusher a = .looking ∨ ∃ cur, s.pusher a = .attempt cur) : Inv (s.look a) := by
  have outside : s.pusher a ≠ .woken ∧ s.pusher a ≠ .passed ∧ s.pusher a ≠ .waiting := by
    rcases was with at_ | ⟨cur, at_⟩ <;> rw [at_] <;> exact ⟨nofun, nofun, nofun⟩
  unfold State.look
  split
  · refine inv.setPusher outside.2.2 (c := .passed) nofun ?_ rfl rfl rfl rfl
    exact inv.told.pass ⟨outside.1, outside.2.1⟩
  · rename_i top open_
    refine inv.setPusher outside.2.2 (c := .attempt top) nofun ?_ rfl rfl rfl rfl
    exact inv.told.setPusher ⟨outside.1, outside.2.1⟩ ⟨nofun, nofun⟩

theorem link (at_ : s.pusher a = .attempt cur) (value : Option A) :
    Inv { s with next := update s.next a value } := by
  obtain ⟨nodes, nodup, waiting, holds⟩ := inv.nodes
  have outside : a ∉ nodes := fun mem => by
    rw [(waiting a).mpr mem] at at_
    cases at_
  refine ⟨⟨nodes, nodup, waiting, ?_⟩, inv.single, ?_⟩
  · unfold Holds at holds ⊢
    cases head : s.head with
    | some top =>
      simp only [head] at holds ⊢
      exact ⟨holds.1.update outside value, holds.2⟩
    | none =>
      simp only [head] at holds ⊢
      obtain ⟨p, done | ⟨node, walking, chain⟩⟩ := holds
      · exact ⟨p, .inl done⟩
      · exact ⟨p, .inr ⟨node, walking, chain.update outside value⟩⟩
  · exact ⟨inv.told.woken, inv.told.passed, inv.told.won, inv.told.lost, inv.told.closed⟩

theorem push (at_ : s.pusher a = .attempt (s.next a)) (head : s.head = some (s.next a)) :
    Inv ({ s with head := some (some a) }.setPusher a .waiting) := by
  obtain ⟨nodes, nodup, waiting, holds⟩ := inv.nodes
  have outside : a ∉ nodes := fun mem => by
    rw [(waiting a).mpr mem] at at_
    cases at_
  unfold Holds at holds
  rw [head] at holds
  refine ⟨⟨a :: nodes, nodup_cons.mpr ⟨outside, nodup⟩, fun b => ?_, ?_⟩, inv.single, ?_⟩
  · simp only [State.setPusher, update_apply]
    split
    · simp [*]
    · simp [*]
  · exact ⟨⟨rfl, holds.1⟩, holds.2⟩
  have told : Told { s with head := some (some a) } := by
    refine ⟨inv.told.woken, inv.told.passed, inv.told.won, inv.told.lost, ?_⟩
    rw [inv.told.closed, head]
    simp
  exact told.setPusher (by rw [show State.pusher _ a = _ from at_]; exact ⟨nofun, nofun⟩)
    ⟨nofun, nofun⟩

theorem lose (idle : s.closer p = .idle) (closed : s.head = none) :
    Inv ((s.setCloser p .lost).log (.lost p)) := by
  obtain ⟨nodes, nodup, waiting, holds⟩ := inv.nodes
  refine ⟨⟨nodes, nodup, waiting, ?_⟩, ?_, inv.told.lose idle⟩
  · unfold Holds at holds ⊢
    rw [closed] at holds
    simp only [State.setCloser, State.log, closed]
    obtain ⟨q, at_⟩ := holds
    have other : q ≠ p := by
      rintro rfl
      rcases at_ with ⟨done, -⟩ | ⟨node, walking, -⟩
      · cases idle.symm.trans done
      · cases idle.symm.trans walking
    exact ⟨q, by rwa [update_of_ne other]⟩
  · intro q q' won won'
    simp only [State.setCloser, State.log, update_apply] at won won'
    split at won
    · cases won
    · split at won'
      · cases won'
      · exact inv.single q q' won won'

theorem win (idle : s.closer p = .idle) (opened : s.head = some top) :
    Inv (({ s with head := none }.setCloser p (.walk top)).log (.won p)) := by
  obtain ⟨nodes, nodup, waiting, holds⟩ := inv.nodes
  unfold Holds at holds
  rw [opened] at holds
  have only : ∀ q, (update s.closer p (.walk top) q).won → q = p := by
    intro q won
    rw [update_apply] at won
    split at won
    · assumption
    · rw [holds.2 q] at won
      cases won
  refine ⟨⟨nodes, nodup, waiting, ?_⟩, ?_, inv.told.win idle opened⟩
  · exact ⟨p, .inr ⟨top, update_self .., holds.1⟩⟩
  · intro q q' won won'
    rw [only q won, only q' won']

theorem walking (at_ : s.closer p = .walk node) :
    s.head = none ∧ ∃ nodes, nodes.Nodup ∧ (∀ a, s.pusher a = .waiting ↔ a ∈ nodes) ∧
      LinkedList.Chain s.next node nodes := by
  obtain ⟨nodes, nodup, waiting, holds⟩ := inv.nodes
  unfold Holds at holds
  cases head : s.head with
  | some top =>
    rw [head] at holds
    cases at_.symm.trans (holds.2 p)
  | none =>
    rw [head] at holds
    refine ⟨rfl, nodes, nodup, waiting, ?_⟩
    have won : (s.closer p).won := by rw [at_]; rfl
    obtain ⟨q, ⟨done, -⟩ | ⟨node', at_', chain⟩⟩ := holds
    · have same := inv.single p q won (by rw [done]; rfl)
      subst same
      cases at_.symm.trans done
    · have same := inv.single p q won (by rw [at_']; rfl)
      subst same
      cases at_.symm.trans at_'
      exact chain

theorem single_setCloser (was : (s.closer p).won) (q q' : P)
    (won : (update s.closer p pc q).won) (won' : (update s.closer p pc q').won) : q = q' := by
  have old : ∀ {q}, (update s.closer p pc q).won → (s.closer q).won := by
    intro q won
    rw [update_apply] at won
    split at won
    · rename_i same
      exact same ▸ was
    · exact won
  exact inv.single q q' (old won) (old won')

theorem finished (at_ : s.closer p = .walk none) : Inv (s.setCloser p .finished) := by
  obtain ⟨closed, nodes, nodup, waiting, chain⟩ := inv.walking at_
  have won : (s.closer p).won := by rw [at_]; rfl
  refine ⟨⟨nodes, nodup, waiting, ?_⟩, inv.single_setCloser won, inv.told.setCloser won rfl⟩
  simp only [State.setCloser, closed]
  exact ⟨p, .inl ⟨update_self .., LinkedList.Chain.none_iff.mp chain⟩⟩

theorem wake (at_ : s.closer p = .walk (some a)) :
    Inv (((s.setPusher a .woken).setCloser p (.walk (s.next a))).log (.woken a)) := by
  obtain ⟨closed, nodes, nodup, waiting, chain⟩ := inv.walking at_
  obtain ⟨rest, rfl, tail⟩ := LinkedList.Chain.some_iff.mp chain
  have won : (s.closer p).won := by rw [at_]; rfl
  have here : s.pusher a = .waiting := (waiting a).mpr mem_cons_self
  obtain ⟨-, nodup⟩ := nodup_cons.mp nodup
  refine ⟨⟨rest, nodup, fun b => ?_, ?_⟩, inv.single_setCloser won, ?_⟩
  · simp only [State.setPusher, State.setCloser, State.log]
    grind
  · simp only [State.setPusher, closed]
    exact ⟨p, .inr ⟨s.next a, update_self .., tail⟩⟩
  · exact (inv.told.setCloser won rfl).wake here

theorem step (took : s.step label = some t) : Inv t := by
  cases label with
  | begin a =>
    obtain ⟨idle, rfl⟩ := Transition.of_ite took
    refine inv.setPusher (by rw [idle]; exact nofun) (c := .looking) nofun ?_ rfl rfl rfl rfl
    exact inv.told.setPusher (by rw [idle]; exact ⟨nofun, nofun⟩) ⟨nofun, nofun⟩
  | look a =>
    simp only [State.step] at took
    split at took
    · cases took
      exact inv.look (.inl ‹_›)
    · cases took
      exact inv.look (.inr ⟨_, ‹_›⟩)
    · cases took
  | link a value =>
    simp only [State.step] at took
    split at took <;> cases took
    exact inv.link ‹_› value
  | push a =>
    obtain ⟨guard, rfl⟩ := Transition.of_ite took
    exact inv.push guard.1 guard.2
  | close p =>
    simp only [State.step] at took
    split at took
    · split at took <;> cases took
      · exact inv.lose ‹_› ‹_›
      · exact inv.win ‹_› ‹_›
    · cases took
  | observe p =>
    obtain ⟨guard, rfl⟩ := Transition.of_ite took
    exact inv.lose guard.1 guard.2
  | walk p =>
    simp only [State.step] at took
    split at took <;> cases took
    · exact inv.finished ‹_›
    · exact inv.wake ‹_›

end

end Inv

/-- Each pusher that is past the stack was woken or refused, once; each closer that has looked won
or lost, once; and one closer has won if the stack is closed. -/
structure ExactlyOnce (history : List (Event A P)) (past : A → Bool) (decided : P → Bool)
    (closed : Bool) : Prop where
  pusher : ∀ a, history.count (.woken a) + history.count (.passed a) = if past a then 1 else 0
  closer : ∀ p, history.count (.won p) + history.count (.lost p) = if decided p then 1 else 0
  winner : history.countP Event.isWon = if closed then 1 else 0

theorem Inv.exactlyOnce (inv : Inv s) {past : A → Bool} {decided : P → Bool} {closed : Bool}
    (pusher : ∀ a, past a ↔ s.pusher a = .woken ∨ s.pusher a = .passed)
    (closer : ∀ p, decided p ↔ s.closer p ≠ .idle) (head : closed ↔ s.head = none) :
    ExactlyOnce s.history past decided closed := by
  obtain ⟨woken, passed, won, lost, told⟩ := inv.told
  refine ⟨fun a => ?_, fun p => ?_, ?_⟩
  · grind
  · have := closer p
    rw [won]
    cases at_ : s.closer p <;> rw [at_] at this <;> simp [Closer.won] <;> grind
  · grind

theorem Inv.waits (inv : Inv s) (at_ : s.closer p = .walk (some a)) : s.pusher a = .waiting := by
  obtain ⟨-, nodes, -, waiting, chain⟩ := inv.walking at_
  obtain ⟨rest, rfl, -⟩ := LinkedList.Chain.some_iff.mp chain
  exact (waiting a).mpr mem_cons_self

end OneShot
