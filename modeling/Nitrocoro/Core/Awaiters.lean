import Nitrocoro.Core.Future
import Nitrocoro.Lib.OneShot

/-! The awaiters of a `Future`, of a `SharedFuture` and of `cancelled()` run the protocol of
`OneShot` with the list of waiters of their shared state. This is the part that they have in
common. -/
namespace Nitrocoro.Awaiters
open LockFreeList Function OneShot
variable {A P : Type}

/-- Where an awaiter is in the protocol. An awaiter past `await_resume` was woken or did not
suspend. -/
def Alike : Future.AwaiterPC A → Pusher A → Prop
  | .idle, pc => pc = .idle
  | .awaitReady, pc => pc = .looking
  | .load, pc => pc = .looking
  | .attempt cur, pc => pc = .attempt cur
  | .suspended, pc => pc = .waiting
  | .scheduled, pc => pc = .woken
  | .resumed, pc => pc = .woken ∨ pc = .passed

def top : Head A → Option (Option A)
  | .closed => none
  | .list top => some top

/-- The next step of the awaiter is a load of the head or a compare_exchange. -/
def looks : Future.AwaiterPC A → Bool
  | .awaitReady => true
  | .load => true
  | .attempt _ => true
  | _ => false

/-- The awaiter goes on, or its handle was passed to the scheduler. -/
def past : Future.AwaiterPC A → Bool
  | .scheduled => true
  | .resumed => true
  | _ => false

theorem Alike.past_iff {pc : Future.AwaiterPC A} (alike : Alike pc pusher) :
    past pc ↔ pusher = .woken ∨ pusher = .passed := by
  cases pc with
  | resumed => exact ⟨fun _ => alike, fun _ => rfl⟩
  | scheduled => exact ⟨fun _ => .inl alike, fun _ => rfl⟩
  | _ =>
    rw [show pusher = _ from alike]
    simp [past]

theorem Alike.suspended_iff {pc : Future.AwaiterPC A} (alike : Alike pc pusher) :
    pc = .suspended ↔ pusher = .waiting := by
  cases pc with
  | resumed => rcases alike with rfl | rfl <;> simp
  | _ =>
    rw [show pusher = _ from alike]
    simp

theorem alike_passed : Alike (.resumed : Future.AwaiterPC A) .passed := .inr rfl

theorem Alike.looking (alike : Alike pc pusher) (looking : looks pc) :
    pusher = .looking ∨ ∃ cur : Option A, pusher = .attempt cur := by
  cases pc with
  | awaitReady | load => exact .inl alike
  | attempt cur => exact .inr ⟨cur, alike⟩
  | _ => cases looking

/-- An awaiter that looks at a closed list goes on without being suspended. -/
def passes [DecidableEq A] (waiters : Head A) (pc : Future.AwaiterPC A) (a : A) :
    List (Event A P) :=
  if waiters = .closed ∧ looks pc then [.passed a] else []

def saw : Head A → Future.AwaiterPC A
  | .closed => .resumed
  | .list cur => .attempt cur

/-- The part of a shared state that its awaiters use runs the protocol. -/
structure Awaits (waiters : Head A) (next : A → Option A) (awaiter : A → Future.AwaiterPC A)
    (o : State A P) : Prop where
  head : o.head = top waiters
  next : o.next = next
  alike : ∀ a, Alike (awaiter a) (o.pusher a)

/-- The protocol goes on from `o` to `o'` with these events, and the closers do not move. -/
structure Quietly [DecidableEq A] [DecidableEq P] (o o' : State A P)
    (events : List (Event A P)) : Prop where
  run : ∃ labels, Transition.Run State.step Transition.free o labels o'
  history : o'.history = o.history ++ events
  closer : o'.closer = o.closer

section
variable [DecidableEq A] [DecidableEq P] {o o' : State A P}
variable {waiters : Head A} {next : A → Option A} {awaiter : A → Future.AwaiterPC A} {a : A}

theorem Quietly.refl : Quietly o o [] := ⟨⟨[], .refl⟩, (List.append_nil _).symm, rfl⟩

theorem Quietly.one (took : o.step l = some o')
    (history : o'.history = o.history ++ events) (closer : o'.closer = o.closer) :
    Quietly o o' events :=
  ⟨⟨[l], .next .refl trivial took⟩, history, closer⟩

theorem Quietly.trans (first : Quietly o o' events) (second : Quietly o' o'' events') :
    Quietly o o'' (events ++ events') := by
  obtain ⟨labels, run⟩ := first.run
  obtain ⟨labels', run'⟩ := second.run
  refine ⟨⟨_, run.trans run'⟩, ?_, second.closer.trans first.closer⟩
  rw [second.history, first.history, List.append_assoc]

namespace Awaits

omit [DecidableEq P] in
theorem update (awaits : Awaits waiters next awaiter o) (alike : Alike pc pusher) :
    Awaits waiters next (update awaiter a pc) (o.setPusher a pusher) where
  head := awaits.head
  next := awaits.next
  alike b := by
    by_cases same : b = a
    · subst same
      simpa [State.setPusher] using alike
    · simpa [State.setPusher, same] using awaits.alike b

omit [DecidableEq P] in
theorem stay (awaits : Awaits waiters next awaiter o) (alike : Alike pc (o.pusher a)) :
    Awaits waiters next (Function.update awaiter a pc) o where
  head := awaits.head
  next := awaits.next
  alike b := by
    by_cases same : b = a
    · subst same
      simpa using alike
    · simpa [same] using awaits.alike b

section
variable (awaits : Awaits waiters next awaiter o)
include awaits

omit [DecidableEq A] [DecidableEq P] in
theorem log : Awaits waiters next awaiter (o.log event) :=
  { awaits with }

theorem begin (idle : awaiter a = .idle) :
    ∃ o', Quietly o o' [] ∧ Awaits waiters next (Function.update awaiter a .awaitReady) o' := by
  have alike := awaits.alike a
  rw [idle] at alike
  refine ⟨o.setPusher a .looking, .one (l := .begin a) (if_pos alike) ?_ rfl, awaits.update rfl⟩
  exact (List.append_nil _).symm

theorem look (looking : looks (awaiter a)) : ∃ o', Quietly o o' (passes waiters (awaiter a) a) ∧
      Awaits waiters next (Function.update awaiter a (saw waiters)) o' := by
  have alike := awaits.alike a
  have took : o.step (.look a) = some (o.look a) := by
    rcases alike.looking looking with at_ | ⟨cur, at_⟩ <;> simp only [State.step, at_]
  have head := awaits.head
  refine ⟨o.look a, ?_⟩
  unfold State.look at took ⊢
  unfold passes
  cases waiters with
  | closed =>
    simp only [show o.head = none from head, looking] at took ⊢
    exact ⟨.one took rfl rfl, (awaits.update alike_passed).log⟩
  | list cur =>
    simp only [show o.head = some cur from head] at took ⊢
    exact ⟨.one took (List.append_nil _).symm rfl, awaits.update rfl⟩

theorem link (at_ : awaiter a = .attempt cur) : ∃ o', Quietly o o' ([] : List (Event A P)) ∧
      Awaits waiters (Function.update next a cur) awaiter o' := by
  have alike := awaits.alike a
  rw [at_] at alike
  refine ⟨{ o with next := Function.update o.next a cur },
    .one (l := .link a cur) ?_ (List.append_nil _).symm rfl, awaits.head, ?_, awaits.alike⟩
  · simp only [State.step, show o.pusher a = _ from alike]
  · rw [awaits.next]

end

theorem push (awaits : Awaits (.list cur) next awaiter o) (at_ : awaiter a = .attempt cur)
    (linked : next a = cur) : ∃ o', Quietly o o' ([] : List (Event A P)) ∧
      Awaits (.list (some a)) next (Function.update awaiter a .suspended) o' := by
  have alike := awaits.alike a
  rw [at_] at alike
  have guard : o.pusher a = .attempt (o.next a) ∧ o.head = some (o.next a) := by
    rw [awaits.next, linked]
    exact ⟨alike, awaits.head⟩
  refine ⟨{ o with head := some (some a) }.setPusher a .waiting,
    .one (l := .push a) (by rw [State.step, if_pos guard])
      (List.append_nil _).symm rfl, ?_⟩
  have pushed : Awaits (.list (some a)) next awaiter { o with head := some (some a) } :=
    ⟨rfl, awaits.next, awaits.alike⟩
  exact pushed.update rfl

end Awaits

def advance (waiters : Head A) (next : A → Option A) (awaiter : A → Future.AwaiterPC A) (a : A)
    (spurious : Bool) : Option (Head A × (A → Option A) × (A → Future.AwaiterPC A)) :=
  match awaiter a with
  | .awaitReady =>
    let pc := match waiters with
      | .closed => .resumed
      | .list _ => .load
    some (waiters, next, update awaiter a pc)
  | .load => some (waiters, next, update awaiter a (saw waiters))
  | .attempt cur =>
    let next := update next a cur
    if waiters = .list cur ∧ spurious = false then
      some (.list (some a), next, update awaiter a .suspended)
    else some (waiters, next, update awaiter a (saw waiters))
  | _ => none

theorem Awaits.advance (awaits : Awaits waiters next awaiter o)
    (took : Awaiters.advance waiters next awaiter a spurious = some after) :
    ∃ o', Quietly o o' (passes waiters (awaiter a) a) ∧ Awaits after.1 after.2.1 after.2.2 o' := by
  unfold Awaiters.advance at took
  cases at_ : awaiter a with
  | awaitReady =>
    simp only [at_] at took
    cases took
    cases waiters with
    | closed => exact at_ ▸ awaits.look (by rw [at_]; rfl)
    | list cur =>
      have alike := awaits.alike a
      rw [at_] at alike
      exact ⟨o, .refl, awaits.stay alike⟩
  | load =>
    simp only [at_] at took
    cases took
    exact at_ ▸ awaits.look (by rw [at_]; rfl)
  | attempt cur =>
    simp only [at_] at took
    obtain ⟨linked, quiet, awaits⟩ := awaits.link at_
    split at took
    · rename_i guard
      cases took
      obtain ⟨rfl, -⟩ := guard
      obtain ⟨o', quiet', awaits⟩ := awaits.push at_ (Function.update_self ..)
      exact ⟨o', quiet.trans quiet', awaits⟩
    · cases took
      obtain ⟨o', quiet', awaits⟩ := awaits.look (by rw [at_]; rfl)
      exact ⟨o', at_ ▸ quiet.trans quiet', awaits⟩
  | _ => simp [at_] at took

/-- A walk over the waiters, of which every step passes on one handle and goes on to the node behind
it, comes to its end and leaves nobody suspended that it has met. -/
theorem walk_ends {S L : Type} {step : S → L → Option S} {label : L} {next : S → A → Option A}
    {awaiter : S → A → Future.AwaiterPC A} {walks : S → Option A → Prop} {s : S}
    (wakes : ∀ s a, walks s (some a) → ∃ t, step s label = some t ∧ walks t (next s a) ∧
      next t = next s ∧ awaiter t = update (awaiter s) a .scheduled)
    (chain : LinkedList.Chain (next s) node nodes) (at_ : walks s node) :
    ∃ n t, Transition.exec step s (List.replicate n label) = some t ∧
      ∀ a, awaiter t a = .suspended → awaiter s a = .suspended ∧ a ∉ nodes := by
  induction nodes generalizing s node with
  | nil => exact ⟨0, s, rfl, fun a suspended => ⟨suspended, List.not_mem_nil⟩⟩
  | cons first rest ih =>
    obtain ⟨rfl, chain⟩ := chain
    obtain ⟨woken, took, walks', sameNext, scheduled⟩ := wakes s first at_
    obtain ⟨n, t, done, left⟩ := ih (sameNext ▸ chain) walks'
    refine ⟨n + 1, t, ?_, fun a suspended => ?_⟩
    · rw [List.replicate_succ, Transition.exec, took]
      exact done
    obtain ⟨before, outside⟩ := left a suspended
    rw [scheduled] at before
    have other : a ≠ first := by
      rintro rfl
      rw [update_self] at before
      cases before
    rw [update_of_ne other] at before
    exact ⟨before, List.not_mem_cons_of_ne_of_not_mem other outside⟩

end

end Nitrocoro.Awaiters
