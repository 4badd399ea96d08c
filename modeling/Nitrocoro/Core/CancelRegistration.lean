import Nitrocoro.Core.CancelTokenProofs
import Nitrocoro.Lib.Handles

/-! The `CancelRegistration` objects of a state that is not cancelled yet. `unregister` and the
destructor set the flag of the callback. The move operations are the ones that the compiler makes,
so an assignment only releases the pointer to the flag that the object had. -/
namespace Nitrocoro.CancelRegistration
open Function Transition Option Handles
-- `O` names the objects, `R` the callbacks
variable {O A P R : Type} [DecidableEq A] [DecidableEq P] [DecidableEq R]

structure State (O A P R : Type) where
  /-- `active_` of each object, by the callback that the flag belongs to. -/
  active : Held O R := fun _ => none
  cancel : CancelState.State A P R := {}

inductive Action (O R : Type) where
  /-- The default constructor. -/
  | construct (o : O)
  /-- The object is initialised with what `onCancel` returns. -/
  | onCancel (o : O) (r : R) (sched : Bool)
  | moveConstruct (o source : O)
  | moveAssign (o source : O)
  | unregister (o : O)
  | destroy (o : O)

def Action.op : Action O R → Op O R
  | .construct o => .construct o none
  | .onCancel o r _ => .construct o (some r)
  | .moveConstruct o source => .moveConstruct o source
  | .moveAssign o source => .moveAssign o source
  | .unregister o => .reset o
  | .destroy o => .destroy o

namespace State

def effect (s : State O A P R) (action : Action O R) : Option (CancelState.State A P R) :=
  match action with
  | .onCancel _ r sched => do
    let adding ← s.cancel.step (.onCancel r sched)
    let added ← adding.step (.add r true)
    if added.reg r = .registered then some added else none
  | _ =>
    match released s.active action.op with
    | some r => s.cancel.step (.unregister r)
    | none => some s.cancel

def step [DecidableEq O] (s : State O A P R) (action : Action O R) : Option (State O A P R) := do
  let active ← Handles.step s.active action.op
  let cancel ← s.effect action
  some { active, cancel }

end State

abbrev Reaches [DecidableEq O] (labels : List (Action O R)) (s : State O A P R) : Prop :=
  Run State.step free {} labels s

/-- A call of `cancel()` that comes now calls the callback, or posts it to the scheduler that does. -/
def Fires (c : CancelState.State A P R) (r : R) : Prop :=
  ∃ p more t, exec CancelState.State.step c (.call p :: more) = some t ∧
    (∀ label ∈ more, label.serves r) ∧ t.runs r = 1

/-- No registration is overwritten that has a callback. -/
def Spares (s : State O A P R) : Action O R → Prop
  | .moveAssign o source => o ≠ source → ∀ r, s.active o ≠ some (some r)
  | _ => True

/-- Until a state is cancelled, its callbacks are registered or unregistered, and those that an
object owns are registered. -/
structure Inv (s : State O A P R) : Prop where
  reached : ∃ labels, CancelState.Reaches labels s.cancel
  opened : s.cancel.waiters ≠ .closed
  idle : ∀ p, s.cancel.canceler p = .idle
  task : ∀ r, s.cancel.task r = .none
  runs : ∀ r, s.cancel.runs r = 0
  reg : ∀ r, s.cancel.reg r = .idle ∨ s.cancel.reg r = .registered ∨
    s.cancel.reg r = .unregistered ∧ s.cancel.flag r
  unique : Unique s.active
  owned : ∀ r, Owned s.active r → s.cancel.reg r = .registered

def added (c : CancelState.State A P R) (r : R) (sched : Bool) : CancelState.State A P R :=
  { c with
    sched := update c.sched r sched
    reg := update c.reg r .registered
    callbacks := c.callbacks ++ [r] }

inductive Effect (s : State O A P R) (action : Action O R) : CancelState.State A P R → Prop where
  | none : action.op.made = none → released s.active action.op = none →
      Effect s action s.cancel
  | add : action.op.made = some r → released s.active action.op = none →
      s.cancel.reg r = .idle → Effect s action (added s.cancel r sched)
  | release : action.op.made = none → released s.active action.op = some r →
      s.cancel.reg r = .registered →
      Effect s action ((s.cancel.testAndSet r).setReg r .unregistered)

variable {s t : State O A P R} {r : R}

theorem Inv.add_eq (inv : Inv s) (idle : s.cancel.reg r = .idle) (sched : Bool) :
    exec CancelState.State.step s.cancel [.onCancel r sched, .add r true] =
      some (added s.cancel r sched) := by
  obtain ⟨top, head⟩ : ∃ top, s.cancel.waiters = .list top := by
    cases head : s.cancel.waiters with
    | closed => exact absurd head inv.opened
    | list top => exact ⟨top, rfl⟩
  simp only [exec, CancelState.State.step, idle, if_true, bind_some,
    CancelState.State.add, CancelState.State.setReg, update_self, head, added,
    update_idem]

theorem Inv.effect (inv : Inv s) (done : s.effect action = some c) : Effect s action c := by
  have releases : (match Handles.released s.active action.op with
      | some r => s.cancel.step (.unregister r)
      | none => some s.cancel) = some c → action.op.made = none → Effect s action c := by
    intro done made
    split at done
    · rename_i r released
      have registered := inv.owned r (by
        cases action <;> simp only [Action.op, Handles.released, join_eq_some_iff,
          reduceCtorEq] at released
        all_goals exact ⟨_, released⟩)
      simp only [CancelState.State.step, registered] at done
      cases done
      exact .release made released registered
    · cases done
      exact .none made ‹_›
  cases action with
  | onCancel o r sched =>
    obtain ⟨adding, begun, rest⟩ := bind_eq_some_iff.mp done
    obtain ⟨added', ended, rest⟩ := bind_eq_some_iff.mp rest
    have idle : s.cancel.reg r = .idle := by
      simp only [CancelState.State.step] at begun
      split at begun
      · assumption
      · cases begun
    have same := inv.add_eq idle sched
    simp only [exec, begun, ended, bind_some] at same
    cases same
    split at rest <;> cases rest
    exact .add rfl rfl idle
  | construct | moveConstruct | moveAssign | unregister | destroy => exact releases done rfl

omit [DecidableEq A] [DecidableEq P] in
theorem Effect.reg_iff (effect : Effect s action c) (r : R) :
    c.reg r = .registered ↔ action.op.made = some r ∨
      s.cancel.reg r = .registered ∧ released s.active action.op ≠ some r := by
  cases effect with
  | none made released => simp [made, released]
  | @add q sched made released idle =>
    rcases eq_or_ne r q with rfl | other
    · simp [made, added]
    · simp [made, released, added, other, other.symm]
  | @release q made released registered =>
    rcases eq_or_ne r q with rfl | other
    · simp [made, released, CancelState.State.setReg]
    · simp [made, released, CancelState.State.setReg, CancelState.State.testAndSet, other,
        other.symm]

namespace Inv

theorem start : Inv ({} : State O A P R) where
  reached := ⟨[], .refl⟩
  opened := nofun
  idle _ := rfl
  task _ := rfl
  runs _ := rfl
  reg _ := .inl rfl
  unique := nofun
  owned := nofun

theorem step [DecidableEq O] (inv : Inv s) (took : s.step action = some t) :
    Inv t ∧ (∀ r, Handles.Owned t.active r ↔ action.op.made = some r ∨
      Handles.Owned s.active r ∧ Handles.released s.active action.op ≠ some r ∧
        Handles.dropped s.active action.op ≠ some r) ∧ Effect s action t.cancel := by
  obtain ⟨active, moved, rest⟩ := bind_eq_some_iff.mp took
  obtain ⟨cancel, done, same⟩ := bind_eq_some_iff.mp rest
  cases same
  have effect := inv.effect done
  have fresh : ∀ r, action.op.made = some r → ¬ Handles.Owned s.active r := by
    intro r made owned
    cases effect with
    | none none | release none => cases none.symm.trans made
    | add same _ idle =>
      cases same.symm.trans made
      cases idle.symm.trans (inv.owned r owned)
  obtain ⟨unique, owned⟩ := Handles.step_owned inv.unique moved fresh
  have registered : ∀ r, Handles.Owned active r → cancel.reg r = .registered := by
    intro r here
    rw [effect.reg_iff r]
    exact ((owned r).mp here).imp_right fun ⟨here, kept, _⟩ => ⟨inv.owned r here, kept⟩
  refine ⟨?_, owned, effect⟩
  obtain ⟨labels, run⟩ := inv.reached
  cases effect with
  | none => exact ⟨⟨labels, run⟩, inv.opened, inv.idle, inv.task, inv.runs, inv.reg, unique,
      registered⟩
  | @add q sched made released idle =>
    refine ⟨⟨_, run.trans (.of_exec (inv.add_eq idle sched))⟩, inv.opened, inv.idle, inv.task,
      inv.runs, fun r => ?_, unique, registered⟩
    rcases eq_or_ne r q with rfl | other
    · exact .inr (.inl (update_self ..))
    · simpa [added, other] using inv.reg r
  | @release q made released here =>
    have took : s.cancel.step (.unregister q) =
        some ((s.cancel.testAndSet q).setReg q .unregistered) := by
      simp only [CancelState.State.step, here]
    refine ⟨⟨_, run.next trivial took⟩, inv.opened, inv.idle, inv.task, inv.runs, fun r => ?_,
      unique, registered⟩
    rcases eq_or_ne r q with rfl | other
    · exact .inr (.inr ⟨update_self .., update_self ..⟩)
    · simpa [CancelState.State.setReg, CancelState.State.testAndSet, other] using inv.reg r

/-- A callback that is registered is called by the next call of `cancel()`. -/
theorem fires [Nonempty P] (inv : Inv s) (registered : s.cancel.reg r = .registered) :
    Fires s.cancel r := by
  obtain ⟨labels, run⟩ := inv.reached
  obtain ⟨p⟩ := ‹Nonempty P›
  let called := s.cancel.setCanceler p .close
  have took : s.cancel.step (.call p) = some called := by
    simp only [CancelState.State.step, inv.idle p]
    rfl
  obtain ⟨closed, took', shut, same, spared⟩ : ∃ closed,
      called.step (.cancel p true) = some closed ∧ closed.waiters = .closed ∧
        closed.reg = s.cancel.reg ∧ closed.Spared r := by
    cases head : s.cancel.waiters with
    | closed => exact absurd head inv.opened
    | list top =>
      refine ⟨{ called with waiters := .closed, work := .swap top }.setCanceler p .working, ?_,
        rfl, rfl, fun _ _ => List.not_mem_nil⟩
      simp only [CancelState.State.step, CancelState.State.cancel, called,
        CancelState.State.setCanceler, update_self, head]
  have run' := (run.next trivial took).next trivial took'
  have here : closed.reg r = .registered := by rw [same, registered]
  obtain ⟨more, t, done, serves, called_⟩ := CancelState.calls run' shut spared
    (by rw [here]; exact CancelState.RegPC.noConfusion)
    (by rw [here]; exact CancelState.RegPC.noConfusion)
  refine ⟨p, .cancel p true :: more, t, ?_, List.forall_mem_cons.mpr ⟨rfl, serves⟩, called_⟩
  simp only [exec, took, bind_some, took', done]

theorem not_fires_idle (inv : Inv s) (idle : s.cancel.reg r = .idle) : ¬ Fires s.cancel r := by
  rintro ⟨p, more, t, done, serves, called⟩
  obtain ⟨labels, run⟩ := inv.reached
  have stays : t.reg r = .idle := by
    obtain ⟨begun, took, rest⟩ := bind_eq_some_iff.mp done
    have same : begun.reg = s.cancel.reg := by
      simp only [CancelState.State.step, inv.idle p] at took
      cases took
      rfl
    refine ((Run.of_exec rest).restrict serves).invariant
      (P := fun t => t.reg r = .idle) (by rw [same]; exact idle) ?_
    intro u v label here serves took
    cases label with
    | cancel q own => rw [CancelState.cancel_reg took, here]
    | add q own =>
      cases of_decide_eq_true serves
      simp only [CancelState.State.step, CancelState.State.add, here] at took
      cases took
    | run q => rw [CancelState.run_reg took, here]
    | _ => cases serves
  -- nobody but `onCancel` has the callback
  have once := (CancelState.sound (run.trans (.of_exec done)) r).once
  simp only [CancelState.Life.holders, CancelState.life, stays, CancelState.RegPC.holds] at once
  omega

theorem not_fires_unregistered (inv : Inv s) (gone : s.cancel.reg r = .unregistered)
    (flag : s.cancel.flag r) : ¬ Fires s.cancel r := by
  rintro ⟨p, more, t, done, -, called⟩
  obtain ⟨labels, run⟩ := inv.reached
  have quiet : CancelState.Quiet (CancelState.life s.cancel r) := by
    have work := ((CancelState.winner run).opened inv.opened).1
    refine ⟨gone, ?_, ?_, ?_, .inl flag⟩
    · simp [CancelState.life, work, CancelState.Work.stage]
    · simp [CancelState.life, inv.task r]
    · simp [CancelState.life, inv.task r]
  have same := quiet.run (CancelState.winner run) (.of_exec done)
  have never := inv.runs r
  omega

theorem fires_iff [Nonempty P] (inv : Inv s) (r : R) :
    Fires s.cancel r ↔ s.cancel.reg r = .registered := by
  refine ⟨fun fires => ?_, inv.fires⟩
  rcases inv.reg r with idle | registered | ⟨gone, flag⟩
  · exact absurd fires (inv.not_fires_idle idle)
  · exact registered
  · exact absurd fires (inv.not_fires_unregistered gone flag)

end Inv

/-- The callbacks that `cancel()` would call now have an owner. -/
def Kept (s : State O A P R) : Prop := ∀ r, Fires s.cancel r → Owned s.active r

omit [DecidableEq A] [DecidableEq P] [DecidableEq R] in
theorem spares_iff [DecidableEq O] : Spares s action ↔ dropped s.active action.op = none := by
  cases action with
  | moveAssign o source =>
    simp only [Spares, Action.op, dropped]
    by_cases same : o = source
    · simp [same]
    · rw [if_neg same, imp_iff_right same, eq_none_iff_forall_ne_some]
      simp only [ne_eq, join_eq_some_iff]
  | _ => exact iff_of_true trivial rfl

theorem kept_step_iff [DecidableEq O] [Nonempty P] (inv : Inv s) (kept : Kept s)
    (took : s.step action = some t) : Kept t ↔ Spares s action := by
  obtain ⟨inv', owned, effect⟩ := inv.step took
  rw [spares_iff]
  constructor
  · intro kept'
    by_contra some_
    obtain ⟨r, dropped⟩ := ne_none_iff_exists'.mp some_
    -- what is dropped was owned, and nothing else happens to it
    have before : Handles.Owned s.active r ∧ Handles.released s.active action.op = none := by
      cases action <;> simp only [Action.op, Handles.dropped, reduceCtorEq] at dropped
      split at dropped
      · cases dropped
      · exact ⟨⟨_, join_eq_some_iff.mp dropped⟩, rfl⟩
    have registered : t.cancel.reg r = .registered := by
      rw [effect.reg_iff r, before.2]
      exact .inr ⟨inv.owned r before.1, by rintro ⟨⟩⟩
    rcases (owned r).mp (kept' r (inv'.fires registered)) with made | ⟨-, -, other⟩
    · cases action <;> simp [Action.op, Handles.dropped, Handles.Op.made] at dropped made
    · exact other dropped
  · intro none r fires
    rw [inv'.fires_iff, effect.reg_iff r] at fires
    rw [owned r, none]
    exact fires.imp_right fun still => ⟨kept r (inv.fires still.1), still.2, by rintro ⟨⟩⟩

/-- At every point of a sequence of operations on registrations, a call of `cancel()` calls only
callbacks that some living registration owns, exactly if no registration was overwritten that had a
callback. -/
theorem fires_owned_iff [DecidableEq O] [Nonempty P] (run : Reaches labels s) :
    (∀ before u, before <+: labels →
      exec (State.step (A := A) (P := P)) {} before = some u →
        ∀ r, Fires u.cancel r → Owned u.active r) ↔
      Run State.step Spares {} labels s := by
  refine run.always_iff .start ?_ (fun inv stepped => (inv.step stepped).1)
    fun inv kept stepped => kept_step_iff inv kept stepped
  intro r fires
  exact absurd fires (Inv.start.not_fires_idle rfl)

/-- A registration is moved, and the object that it was moved from goes out of scope. -/
def movedOut : List (Action (Fin 2) (Fin 2)) :=
  [.onCancel 0 0 false, .moveConstruct 1 0, .destroy 0]

theorem fires_owned_moved : ∃ s : State (Fin 2) Unit Unit (Fin 2),
    exec State.step {} movedOut = some s ∧ s.active 0 = none ∧
      Fires s.cancel 0 ∧ Handles.Owned s.active 0 := by
  obtain ⟨s, done, gone, registered⟩ : ∃ s : State (Fin 2) Unit Unit (Fin 2),
      exec State.step {} movedOut = some s ∧ s.active 0 = none ∧
        s.cancel.reg 0 = .registered := exec_any (by decide)
  have run : Reaches movedOut s := .of_exec done
  have spared : Run State.step Spares {} movedOut s := by
    have unassigned : ∀ label ∈ movedOut, ∀ o p, label ≠ .moveAssign o p := by
      simp [movedOut]
    refine (run.restrict unassigned).relax fun {t label} other => ?_
    cases label with
    | moveAssign o p => exact absurd rfl (other o p)
    | _ => trivial
  have inv : Inv s := run.invariant .start fun inv _ stepped => (inv.step stepped).1
  have fires := inv.fires registered
  exact ⟨s, done, gone, fires, (fires_owned_iff run).mpr spared _ s List.prefix_rfl done 0 fires⟩

def overwritten : List (Action (Fin 2) (Fin 2)) :=
  [.onCancel 0 0 false, .onCancel 1 1 false, .moveAssign 0 1]

theorem overwritten_fires : ∃ s : State (Fin 2) Unit Unit (Fin 2),
    exec State.step {} overwritten = some s ∧ ¬ Handles.Owned s.active 0 ∧
      Fires s.cancel 0 := by
  obtain ⟨s, done, lost, registered⟩ : ∃ s : State (Fin 2) Unit Unit (Fin 2),
      exec State.step {} overwritten = some s ∧
        (∀ o, s.active o ≠ some (some 0)) ∧ s.cancel.reg 0 = .registered :=
    exec_any (by decide)
  have run : Reaches overwritten s := .of_exec done
  have inv : Inv s := run.invariant .start fun inv _ stepped => (inv.step stepped).1
  exact ⟨s, done, fun ⟨o, here⟩ => lost o here, inv.fires registered⟩

end Nitrocoro.CancelRegistration
