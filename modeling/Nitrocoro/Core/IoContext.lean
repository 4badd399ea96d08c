import Mathlib.Logic.Function.Basic
import Nitrocoro.Lib.Transition

/-! The `IoContext` of one descriptor number, which channels use one after another. Operations of
channels whose descriptor was closed may come at any time; each of `setIoHandler`, `updateIo` and
`removeIo` compares ids on its own. -/
namespace Nitrocoro.IoContexts
open Transition
open Function (update_of_ne update_self)

/-- `Scheduler::IoContext`. A handler is named after the channel that it belongs to. -/
structure IoContext where
  id : Nat
  handler : Option Nat
  addedToEpoll : Bool := false
  deriving DecidableEq

/-- Whether `epoll_ctl` fails is up to the kernel. -/
structure Update where
  events : Nat
  edgeTriggered : Bool
  fails : Bool
  deriving DecidableEq

/-- What a channel has issued. -/
inductive Phase where
  | none
  /-- Its constructor has run, and `setIoHandler` is posted. -/
  | created
  | registered
  | removed
  deriving DecidableEq

structure State where
  /-- The entry of `ioContexts_`. -/
  context : Option IoContext := none
  /-- The interest that the kernel has: the events and the trigger mode. -/
  interest : Option (Nat × Bool) := none
  /-- `nextIoId`. -/
  nextId : Nat := 0
  phase : Nat → Phase := fun _ => .none

inductive Action where
  /-- A channel is constructed; the number may have been closed and opened again before. -/
  | create (reopened : Bool)
  | set (id : Nat)
  | update (id : Nat) (ev : Update)
  | remove (id : Nat)
  deriving DecidableEq

def Action.channel : Action → Option Nat
  | .create _ => none
  | .set id => some id
  | .update id _ => some id
  | .remove id => some id

namespace State

def target (s : State) : Option Nat := s.context.bind (·.handler)

def setIoHandler (s : State) (id : Nat) : Option State :=
  match s.context with
  | some ctx =>
    if id < ctx.id then some s
    else if ctx.id < id then some { s with context := some { id, handler := some id } }
    else if ctx.handler.isNone then
      some { s with context := some { ctx with handler := some id } }
    -- the assertion on the handler
    else none
  | none => some { s with context := some { id, handler := some id } }

def control (s : State) (ctx : IoContext) (ev : Update) : State :=
  if ev.events = 0 then
    if ctx.addedToEpoll then
      { s with context := some { ctx with addedToEpoll := false }, interest := none }
    else { s with context := some ctx }
  else if ev.fails then { s with context := some ctx }
  else
    { s with
      context := some { ctx with addedToEpoll := true }
      interest := some (ev.events, ev.edgeTriggered) }

def updateIo (s : State) (id : Nat) (ev : Update) : State :=
  match s.context with
  | some ctx =>
    if id < ctx.id then s
    else if ctx.id < id then s.control { id, handler := none } ev
    else s.control ctx ev
  | none => s.control { id, handler := none } ev

def removeIo (s : State) (id : Nat) : Option State :=
  match s.context with
  -- the assertion that there is an entry
  | none => none
  | some ctx =>
    if ctx.id ≠ id then some s
    else if ctx.addedToEpoll then some { s with context := none, interest := none }
    else some { s with context := none }

def goto (s : State) (id : Nat) (phase : Phase) : State :=
  { s with phase := Function.update s.phase id phase }

def step (s : State) : Action → Option State
  | .create reopened =>
    some ({ s with
      nextId := s.nextId + 1
      interest := if reopened then none else s.interest }.goto s.nextId .created)
  | .set id =>
    if s.phase id = .created then (s.setIoHandler id).map (goto · id .registered) else none
  | .update id ev => if s.phase id = .registered then some (s.updateIo id ev) else none
  | .remove id =>
    if s.phase id = .registered then (s.removeIo id).map (goto · id .removed) else none

end State

abbrev Reaches (labels : List Action) (s : State) : Prop :=
  Run State.step free {} labels s

variable {s t : State} {id : Nat}

/-- A registered channel that was not removed is served by the context, or by one of a newer
channel, unless such a one was removed. -/
structure Inv (s : State) : Prop where
  fresh : ∀ id, s.nextId ≤ id → s.phase id = .none
  owner : ∀ ctx, s.context = some ctx → s.phase ctx.id = .registered
  serves : ∀ b, s.phase b = .registered → (∃ c, b ≤ c ∧ s.phase c = .removed) ∨
    ∃ ctx, s.context = some ctx ∧ b ≤ ctx.id ∧ ctx.handler = some ctx.id

theorem goto_phase : (s.goto id phase).phase id = phase := update_self ..

theorem setIoHandler_cases (done : s.setIoHandler id = some t) :
    t = s ∧ (∃ ctx, s.context = some ctx ∧ id < ctx.id) ∨
    (∀ ctx, s.context = some ctx → ctx.id ≤ id) ∧
      ∃ ctx, t = { s with context := some ctx } ∧ ctx.id = id ∧ ctx.handler = some id := by
  unfold State.setIoHandler at done
  cases context : s.context with
  | none =>
    simp only [context] at done
    cases done
    exact .inr ⟨nofun, _, rfl, rfl, rfl⟩
  | some ctx =>
    simp only [context] at done
    split at done
    · cases done
      exact .inl ⟨rfl, ctx, rfl, ‹_›⟩
    rename_i newer
    right
    refine ⟨fun other same => ?_, ?_⟩
    · cases same
      exact Nat.le_of_not_lt newer
    split at done
    · cases done
      exact ⟨_, rfl, rfl, rfl⟩
    · rename_i older
      split at done <;> cases done
      exact ⟨_, rfl, Nat.le_antisymm (Nat.le_of_not_lt newer) (Nat.le_of_not_lt older), rfl⟩

theorem control_cases (s : State) (ctx : IoContext) (ev : Update) :
    ∃ added interest, s.control ctx ev =
      { s with context := some { ctx with addedToEpoll := added }, interest } := by
  unfold State.control
  split
  · split
    · exact ⟨_, _, rfl⟩
    · exact ⟨ctx.addedToEpoll, s.interest, rfl⟩
  · split
    · exact ⟨ctx.addedToEpoll, s.interest, rfl⟩
    · exact ⟨_, _, rfl⟩

theorem updateIo_cases (s : State) (id : Nat) (ev : Update) :
    s.updateIo id ev = s ∧ (∃ ctx, s.context = some ctx ∧ id < ctx.id) ∨
    (∀ ctx, s.context = some ctx → ctx.id ≤ id) ∧
      ∃ ctx interest, s.updateIo id ev = { s with context := some ctx, interest } ∧ ctx.id = id ∧
        ∀ old, s.context = some old → old.id = id → ctx.handler = old.handler := by
  unfold State.updateIo
  cases context : s.context with
  | none =>
    obtain ⟨added, interest, same⟩ := control_cases s { id, handler := none } ev
    exact .inr ⟨nofun, _, interest, same, rfl, nofun⟩
  | some ctx =>
    simp only
    split
    · exact .inl ⟨rfl, ctx, rfl, ‹_›⟩
    rename_i newer
    right
    refine ⟨fun other same => ?_, ?_⟩
    · cases same
      exact Nat.le_of_not_lt newer
    split
    · rename_i older
      obtain ⟨added, interest, same⟩ := control_cases s { id, handler := none } ev
      refine ⟨_, interest, same, rfl, fun old same' equal => ?_⟩
      cases same'
      exact absurd equal (Nat.ne_of_lt older)
    rename_i older
    obtain ⟨added, interest, same⟩ := control_cases s ctx ev
    refine ⟨_, interest, same,
      Nat.le_antisymm (Nat.le_of_not_lt newer) (Nat.le_of_not_lt older), ?_⟩
    intro old same' _
    cases same'
    rfl

theorem removeIo_cases (done : s.removeIo id = some t) :
    ∃ ctx, s.context = some ctx ∧ (t = s ∧ ctx.id ≠ id ∨
      ctx.id = id ∧ ∃ interest, t = { s with context := none, interest }) := by
  unfold State.removeIo at done
  cases context : s.context with
  | none => simp [context] at done
  | some ctx =>
    simp only [context] at done
    refine ⟨ctx, rfl, ?_⟩
    split at done
    · cases done
      exact .inl ⟨rfl, ‹_›⟩
    rename_i same
    right
    refine ⟨not_not.mp same, ?_⟩
    split at done <;> cases done
    · exact ⟨none, rfl⟩
    · exact ⟨s.interest, rfl⟩

namespace Inv

theorem serves_newer (inv : Inv s) (newest : ∀ ctx, s.context = some ctx → ctx.id ≤ id)
    (b : Nat) (registered : s.phase b = .registered) :
    (∃ c, b ≤ c ∧ s.phase c = .removed) ∨ b ≤ id := by
  rcases inv.serves b registered with removed | ⟨ctx, context, below, -⟩
  · exact .inl removed
  · exact .inr (Nat.le_trans below (newest ctx context))

theorem fresh_update (inv : Inv s) (phase : Phase) (known : s.phase id ≠ .none) (c : Nat)
    (later : s.nextId ≤ c) : Function.update s.phase id phase c = .none := by
  have other : c ≠ id := by
    rintro rfl
    exact known (inv.fresh c later)
  exact (update_of_ne other _ _).trans (inv.fresh c later)

theorem create (inv : Inv s) (interest : Option (Nat × Bool)) :
    Inv ({ s with nextId := s.nextId + 1, interest }.goto s.nextId .created) := by
  have other : ∀ {id phase}, s.phase id = phase → phase ≠ .none → id ≠ s.nextId := by
    rintro id phase at_ known rfl
    exact known (at_.symm.trans (inv.fresh _ (Nat.le_refl _)))
  have kept : ∀ {id phase}, s.phase id = phase → phase ≠ .none →
      Function.update s.phase s.nextId .created id = phase := fun at_ known =>
    (update_of_ne (other at_ known) _ _).trans at_
  refine ⟨fun id later => ?_, fun ctx context => ?_, fun b registered => ?_⟩
  · exact (update_of_ne (Nat.ne_of_gt later) _ _).trans
      (inv.fresh id (Nat.le_of_succ_le later))
  · exact kept (inv.owner ctx context) nofun
  have old : s.phase b = .registered := by
    by_cases same : b = s.nextId
    · rw [same, goto_phase] at registered
      cases registered
    · exact (update_of_ne same _ _).symm.trans registered
  rcases inv.serves b old with ⟨c, above, removed⟩ | served
  · exact .inl ⟨c, above, kept removed nofun⟩
  · exact .inr served

theorem set (inv : Inv s) (created : s.phase id = .created) (done : s.setIoHandler id = some t) :
    Inv (t.goto id .registered) := by
  have removed : ∀ {c}, s.phase c = .removed →
      Function.update s.phase id .registered c = .removed := fun {c} at_ => by
    have other : c ≠ id := by
      rintro rfl
      cases created.symm.trans at_
    exact (update_of_ne other _ _).trans at_
  have fresh := inv.fresh_update .registered (by rw [created]; exact Phase.noConfusion)
  rcases setIoHandler_cases done with ⟨rfl, ctx, context, newer⟩ | ⟨newest, ctx, rfl, own, handler⟩
  · -- a stale `setIoHandler`: the newer channel is registered, and serves this one too
    have serves : ∀ b, b ≤ ctx.id →
        (∃ c, b ≤ c ∧ Function.update t.phase id .registered c = .removed) ∨
        ∃ ctx, t.context = some ctx ∧ b ≤ ctx.id ∧ ctx.handler = some ctx.id := fun b below => by
      rcases inv.serves ctx.id (inv.owner ctx context) with ⟨c, above, gone⟩ | ⟨ctx', here, up, h⟩
      · exact .inl ⟨c, Nat.le_trans below above, removed gone⟩
      · exact .inr ⟨ctx', here, Nat.le_trans below up, h⟩
    refine ⟨fresh, fun other here => ?_, fun b registered => ?_⟩
    · cases context.symm.trans here
      exact (update_of_ne (Nat.ne_of_gt newer) _ _).trans (inv.owner ctx context)
    by_cases same : b = id
    · exact serves b (same ▸ Nat.le_of_lt newer)
    have old : t.phase b = .registered := (update_of_ne same _ _).symm.trans registered
    rcases inv.serves b old with ⟨c, above, gone⟩ | served
    · exact .inl ⟨c, above, removed gone⟩
    · exact .inr served
  · refine ⟨fresh, fun other here => ?_, fun b registered => ?_⟩
    · cases here
      rw [own]
      exact update_self ..
    have served : ∀ b, b ≤ id → ∃ ctx', some ctx = some ctx' ∧ b ≤ ctx'.id ∧
        ctx'.handler = some ctx'.id := fun b below =>
      ⟨ctx, rfl, own ▸ below, own ▸ handler⟩
    by_cases same : b = id
    · exact .inr (served b (Nat.le_of_eq same))
    have old : s.phase b = .registered := (update_of_ne same _ _).symm.trans registered
    rcases inv.serves_newer newest b old with ⟨c, above, gone⟩ | below
    · exact .inl ⟨c, above, removed gone⟩
    · exact .inr (served b below)

theorem update (inv : Inv s) (registered : s.phase id = .registered) (ev : Update) :
    Inv (s.updateIo id ev) := by
  rcases updateIo_cases s id ev with ⟨same, -⟩ | ⟨newest, ctx, interest, same, own, handler⟩
  · rw [same]
    exact inv
  rw [same]
  refine ⟨inv.fresh, fun other here => ?_, fun b at_ => ?_⟩
  · cases here
    exact own ▸ registered
  rcases inv.serves_newer newest b at_ with removed | below
  · exact .inl removed
  -- if the channel was evicted, the one that evicted it was removed
  rcases inv.serves id registered with ⟨c, above, removed⟩ | ⟨old, context, up, own'⟩
  · exact .inl ⟨c, Nat.le_trans below above, removed⟩
  · have equal : old.id = id := Nat.le_antisymm (newest old context) up
    refine .inr ⟨ctx, rfl, own ▸ below, ?_⟩
    rw [handler old context equal, own', own, equal]

theorem remove (inv : Inv s) (registered : s.phase id = .registered)
    (done : s.removeIo id = some t) : Inv (t.goto id .removed) := by
  have gone : ∀ {c}, s.phase c = .removed → Function.update s.phase id .removed c = .removed :=
    fun {c} at_ => by
      by_cases same : c = id
      · rw [same]
        exact update_self ..
      · exact (update_of_ne same _ _).trans at_
  have fresh := inv.fresh_update .removed (by rw [registered]; exact Phase.noConfusion)
  have old : ∀ {b}, Function.update s.phase id .removed b = .registered →
      b ≠ id ∧ s.phase b = .registered := fun {b} at_ => by
    by_cases same : b = id
    · rw [same, update_self] at at_
      cases at_
    · exact ⟨same, (update_of_ne same _ _).symm.trans at_⟩
  obtain ⟨ctx, context, ⟨rfl, other⟩ | ⟨own, -, rfl⟩⟩ := removeIo_cases done
  · refine ⟨fresh, fun other' here => ?_, fun b at_ => ?_⟩
    · cases context.symm.trans here
      exact (update_of_ne other _ _).trans (inv.owner ctx context)
    · rcases inv.serves b (old at_).2 with ⟨c, above, removed⟩ | served
      · exact .inl ⟨c, above, gone removed⟩
      · exact .inr served
  refine ⟨fresh, nofun, fun b at_ => .inl ?_⟩
  rcases inv.serves b (old at_).2 with ⟨c, above, removed⟩ | ⟨ctx', here, below, -⟩
  · exact ⟨c, above, gone removed⟩
  · rw [context] at here
    cases here
    exact ⟨id, own ▸ below, update_self ..⟩

theorem step (inv : Inv s) (took : s.step a = some t) : Inv t := by
  cases a with
  | create reopened =>
    cases took
    exact inv.create _
  | set id =>
    simp only [State.step] at took
    split at took
    · obtain ⟨u, done, rfl⟩ := Option.map_eq_some_iff.mp took
      exact inv.set ‹_› done
    · cases took
  | update id ev =>
    simp only [State.step] at took
    split at took
    · cases took
      exact inv.update ‹_› ev
    · cases took
  | remove id =>
    simp only [State.step] at took
    split at took
    · obtain ⟨u, done, rfl⟩ := Option.map_eq_some_iff.mp took
      exact inv.remove ‹_› done
    · cases took

end Inv

theorem Reaches.inv (run : Reaches labels s) : Inv s :=
  run.invariant ⟨fun _ _ => rfl, nofun, fun _ => nofun⟩
    fun inv _ took => inv.step took

theorem stale_ignored (context : s.context = some ctx) (stale : id < ctx.id)
    (issues : a.channel = some id) (took : s.step a = some t) :
    t.context = s.context ∧ t.interest = s.interest := by
  cases a with
  | create => cases issues
  | set =>
    cases issues
    simp only [State.step, State.setIoHandler, context] at took
    split at took <;> cases took
    exact ⟨rfl, rfl⟩
  | update =>
    cases issues
    simp only [State.step, State.updateIo, context] at took
    split at took <;> cases took
    exact ⟨rfl, rfl⟩
  | remove =>
    cases issues
    simp only [State.step, State.removeIo, context, if_pos (Nat.ne_of_gt stale)] at took
    split at took <;> cases took
    exact ⟨rfl, rfl⟩

/-- From the registration of a channel until it or a newer one is removed, events go to the handler
of the newest registered channel, and no operation of an older channel changes the context or the
interest of the kernel. -/
theorem newest_served (run : Reaches labels s) (registered : s.phase b = .registered)
    (stays : ∀ c, b ≤ c → s.phase c ≠ .removed) :
    (∃ ctx, s.context = some ctx ∧ b ≤ ctx.id ∧ s.phase ctx.id = .registered ∧
      (∀ c, s.phase c = .registered → c ≤ ctx.id) ∧ s.target = some ctx.id) ∧
    ∀ a id t, id < b → a.channel = some id → s.step a = some t →
      t.context = s.context ∧ t.interest = s.interest := by
  have inv := run.inv
  have here : ∀ {c}, b ≤ c → s.phase c = .registered →
      ∃ ctx, s.context = some ctx ∧ c ≤ ctx.id ∧ ctx.handler = some ctx.id := by
    intro c above at_
    rcases inv.serves c at_ with ⟨c', above', removed⟩ | served
    · exact absurd removed (stays c' (Nat.le_trans above above'))
    · exact served
  obtain ⟨ctx, context, above, handler⟩ := here (Nat.le_refl b) registered
  refine ⟨⟨ctx, context, above, inv.owner ctx context, fun c at_ => ?_, ?_⟩, ?_⟩
  · by_contra newer
    have newer := Nat.lt_of_not_le newer
    obtain ⟨ctx', same, up, -⟩ := here (Nat.le_trans above (Nat.le_of_lt newer)) at_
    cases context.symm.trans same
    exact Nat.lt_irrefl _ (Nat.lt_of_lt_of_le newer up)
  · rw [State.target, context]
    exact handler
  · intro a id t older issues stepped
    exact stale_ignored context (Nat.lt_of_lt_of_le older above) issues stepped

/-- A channel takes over a descriptor that an older one still has an interest in. -/
def takeOver : List Action :=
  [.create true, .set 0, .update 0 ⟨1, true, false⟩, .create true, .set 1,
    .update 1 ⟨1, true, false⟩]

theorem newest_served_remove : ∃ s t, exec State.step {} takeOver = some s ∧ s.target = some 1 ∧
      s.step (.remove 0) = some t ∧ t.context = s.context ∧ t.interest = some (1, true) := by
  have ends : ∃ s, exec State.step {} takeOver = some s ∧ s.target = some 1 ∧
      s.phase 1 = .registered ∧ s.nextId = 2 ∧ s.interest = some (1, true) ∧
      (s.step (.remove 0)).isSome := exec_any (by decide)
  obtain ⟨s, done, target, registered, two, interest, some_⟩ := ends
  obtain ⟨t, stepped⟩ := Option.isSome_iff_exists.mp some_
  have run : Reaches takeOver s := .of_exec done
  have stays : ∀ c, 1 ≤ c → s.phase c ≠ .removed := by
    intro c above removed
    by_cases one : c = 1
    · rw [one, registered] at removed
      cases removed
    · rw [run.inv.fresh c (by omega)] at removed
      cases removed
  have kept := (newest_served run registered stays).2 (.remove 0) 0 t (by decide) rfl stepped
  exact ⟨s, t, done, target, stepped, kept.1, kept.2.trans interest⟩

/-- Three channels on one number. The newest is removed while the two older ones are still to be
removed, and there is no context that a late operation could be compared with. -/
def newestRemoved : List Action :=
  [.create true, .create true, .create true, .set 0, .set 1, .set 2, .remove 2]

theorem update_after_newest_removed :
    ∃ s t, exec State.step {} newestRemoved = some s ∧ s.phase 1 = .registered ∧
      s.step (.update 0 ⟨1, true, false⟩) = some t ∧ s.context = none ∧ s.interest = none ∧
      t.context = some { id := 0, handler := none, addedToEpoll := true } ∧
      t.interest = some (1, true) := by
  have ends : ∃ s, exec State.step {} newestRemoved = some s ∧
      s.phase 1 = .registered ∧ s.context = none ∧ s.interest = none ∧
      (s.step (.update 0 ⟨1, true, false⟩)).any fun t =>
        t.context = some { id := 0, handler := none, addedToEpoll := true } ∧
          t.interest = some (1, true) := exec_any (by decide)
  obtain ⟨s, done, registered, context, interest, rest⟩ := ends
  obtain ⟨t, stepped, same⟩ := (Option.any_eq_true _ _).mp rest
  obtain ⟨after, interest'⟩ := of_decide_eq_true same
  exact ⟨s, t, done, registered, stepped, context, interest, after, interest'⟩

end Nitrocoro.IoContexts
