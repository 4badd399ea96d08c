import Nitrocoro.Core.FutureAwaiters
import Nitrocoro.Core.FutureProofs
import Nitrocoro.Lib.Handles

/-! The `Promise` objects and the shared states that they own. The destructor of a promise breaks
it if it was not satisfied. The move operations are the ones that the compiler makes, so an
assignment only releases the pointer to the shared state that the object had. -/

namespace Nitrocoro.PromiseOwners
open Function Transition Option Handles
-- `O` names the objects, `S` the shared states
variable {O S A P T E : Type} [DecidableEq O] [DecidableEq S] [DecidableEq A] [DecidableEq P]

structure State (O S A P T E : Type) where
  /-- `state_` of each object. -/
  owner : Held O S := fun _ => none
  /-- The shared states that were allocated. -/
  made : S → Bool := fun _ => false
  future : S → Future.State A P T E := fun _ => {}
  /-- The call that the destructor of an object makes. -/
  breaking : O → Option P := fun _ => none

inductive Action (O S A P T E : Type) where
  | construct (o : O) (shared : S)
  | moveConstruct (o source : O)
  | moveAssign (o source : O)
  /-- `set_value` or `set_exception`. -/
  | call (o : O) (p : P) (call : Future.Call T E)
  /-- The next step of such a call, or of an awaiter of the future. -/
  | run (shared : S) (label : Future.Action A P T E)
  /-- The destructor begins. -/
  | destroy (o : O) (p : P)
  /-- It ends. -/
  | destroyed (o : O)

def inside : Future.Action A P T E → Bool
  | .call _ _ => false
  | .destroy _ => false
  | _ => true

namespace State

def setFuture (u : State O S A P T E) (shared : S) (f : Future.State A P T E) :
    State O S A P T E :=
  { u with future := update u.future shared f }

def change (u : State O S A P T E) (op : Op O S) : Option (State O S A P T E) :=
  (step u.owner op).map fun owner =>
    { u with owner, made := fun shared => u.made shared || op.made = some shared }

def finished : Future.SetterPC A T E → Bool
  | .returned => true
  | .threw => true
  | _ => false

def step (u : State O S A P T E) : Action O S A P T E → Option (State O S A P T E)
  | .construct o shared => if u.made shared then none else u.change (.construct o (some shared))
  | .moveConstruct o source =>
    if u.breaking source = none then u.change (.moveConstruct o source) else none
  | .moveAssign o source =>
    if u.breaking o = none ∧ u.breaking source = none then u.change (.moveAssign o source)
    else none
  | .call o p call =>
    match u.breaking o, u.owner o with
    | none, some (some shared) =>
      (Future.step (u.future shared) (.call p call)).map (u.setFuture shared)
    | _, _ => none
  | .run shared label =>
    if inside label then (Future.step (u.future shared) label).map (u.setFuture shared) else none
  | .destroy o p =>
    match u.breaking o, u.owner o with
    | none, some (some shared) =>
      (Future.step (u.future shared) (.destroy p)).map fun f =>
        { u.setFuture shared f with breaking := update u.breaking o (some p) }
    | none, some none => u.change (.destroy o)
    | _, _ => none
  | .destroyed o =>
    match u.breaking o, u.owner o with
    | some p, some (some shared) =>
      if finished ((u.future shared).setter p) then
        (u.change (.destroy o)).map fun t =>
          { t with breaking := update u.breaking o none }
      else none
    | _, _ => none

end State

abbrev Reaches (labels : List (Action O S A P T E)) (u : State O S A P T E) : Prop :=
  Run State.step free {} labels u

/-- The shared state was satisfied, by `set_value`, `set_exception` or a destructor, and that call
comes to the point where nobody is suspended by its own steps. -/
def Satisfied (f : Future.State A P T E) : Prop :=
  f.closedBy.isSome ∧ ∃ p n t, exec Future.step f (List.replicate n (.set p)) = some t ∧
    ∀ a, t.awaiter a ≠ .suspended

/-- A shared state without an owner was satisfied. -/
def Kept (u : State O S A P T E) : Prop :=
  ∀ shared, u.made shared → ¬ Owned u.owner shared → Satisfied (u.future shared)

/-- No promise is overwritten that has a shared state which was not satisfied. -/
def Spares (u : State O S A P T E) : Action O S A P T E → Prop
  | .moveAssign o source => o ≠ source → ∀ shared, u.owner o = some (some shared) →
      (u.future shared).waiters = .closed
  | _ => True

variable {u t : State O S A P T E}

structure Inv (u : State O S A P T E) : Prop where
  reached : ∀ shared, ∃ labels, Future.Reaches free labels (u.future shared)
  unique : Unique u.owner
  owned : ∀ shared, Owned u.owner shared → u.made shared

/-- All that an action can do. A state that an object gives up itself was satisfied. -/
inductive Effect (u : State O S A P T E) (action : Action O S A P T E) (t : State O S A P T E) :
    Prop where
  | change (op : Op O S) (stepped : step u.owner op = some t.owner)
      (made : ∀ shared, t.made shared ↔ u.made shared ∨ op.made = some shared)
      (future : t.future = u.future)
      (fresh : ∀ shared, op.made = some shared → u.made shared = false)
      (released : ∀ shared, released u.owner op = some shared →
        (u.future shared).waiters = .closed)
      (assigns : ∀ o source, action = .moveAssign o source ↔ op = .moveAssign o source)
  | future (shared : S) (label : Future.Action A P T E)
      (stepped : Future.step (u.future shared) label = some (t.future shared))
      (others : ∀ other, other ≠ shared → t.future other = u.future other)
      (needs : inside label ∨ Owned u.owner shared) (owner : t.owner = u.owner)
      (made : t.made = u.made) (quiet : ∀ o source, action ≠ .moveAssign o source)

omit [DecidableEq A] in
theorem decided_of_finished {pc : Future.SetterPC A T E} (done : State.finished pc) :
    pc.decided := by
  cases pc with
  | returned => rfl
  | threw => rfl
  | _ => cases done

omit [DecidableEq A] [DecidableEq P] in
theorem change_cases {op : Op O S} (changed : u.change op = some t) :
    step u.owner op = some t.owner ∧
      (∀ shared, t.made shared ↔ u.made shared ∨ op.made = some shared) ∧ t.future = u.future := by
  obtain ⟨owner, took, rfl⟩ := map_eq_some_iff.mp changed
  exact ⟨took, fun shared => by simp, rfl⟩

theorem Effect.of_future (shared : S) {label : Future.Action A P T E}
    (took : Future.step (u.future shared) label = some f)
    (future : t.future = update u.future shared f)
    (needs : inside label ∨ Owned u.owner shared) (owner : t.owner = u.owner)
    (made : t.made = u.made) (quiet : ∀ o source, action ≠ .moveAssign o source) :
    Effect u action t := by
  refine .future shared label ?_ (fun other away => ?_) needs owner made quiet
  · rw [future, update_self, took]
  · rw [future, update_of_ne away]

theorem Inv.effect (inv : Inv u) (took : u.step action = some t) : Effect u action t := by
  cases action with
  | construct o shared =>
    simp only [State.step] at took
    split at took
    · cases took
    rename_i fresh
    obtain ⟨took, made, future⟩ := change_cases took
    refine .change _ took made future (fun other new => ?_) nofun (by simp)
    cases new
    simpa using fresh
  | moveConstruct | moveAssign =>
    simp only [State.step] at took
    split at took
    · obtain ⟨took, made, future⟩ := change_cases took
      exact .change _ took made future nofun nofun (by simp)
    · cases took
  | call o p call =>
    simp only [State.step] at took
    split at took
    · rename_i has
      obtain ⟨f, moved, rfl⟩ := map_eq_some_iff.mp took
      exact .of_future _ moved rfl (.inr ⟨o, has⟩) rfl rfl nofun
    · cases took
  | run shared label =>
    simp only [State.step] at took
    split at took
    · rename_i within
      obtain ⟨f, moved, rfl⟩ := map_eq_some_iff.mp took
      exact .of_future _ moved rfl (.inl within) rfl rfl nofun
    · cases took
  | destroy o p =>
    simp only [State.step] at took
    split at took
    · rename_i has
      obtain ⟨f, moved, rfl⟩ := map_eq_some_iff.mp took
      exact .of_future _ moved rfl (.inr ⟨o, has⟩) rfl rfl nofun
    · rename_i empty
      obtain ⟨took, made, future⟩ := change_cases took
      refine .change _ took made future nofun (fun shared released => ?_) (by simp)
      simp [Handles.released, empty] at released
    · cases took
  | destroyed o =>
    simp only [State.step] at took
    split at took
    · rename_i p shared breaking here
      split at took
      · rename_i done
        obtain ⟨v, changed, rfl⟩ := map_eq_some_iff.mp took
        obtain ⟨took, made, future⟩ := change_cases changed
        refine .change _ took made future nofun (fun other released => ?_) (by simp)
        simp only [Handles.released, here, join_some, Option.some.injEq] at released
        subst released
        obtain ⟨labels, run⟩ := inv.reached shared
        exact Future.closed_of_decided run (decided_of_finished done)
      · cases took
    · cases took

theorem satisfied_iff {f : Future.State A P T E} (run : Future.Reaches free labels f) :
    Satisfied f ↔ f.waiters = .closed := by
  have inv := Future.reaches_invariant run
  refine ⟨fun satisfied => ?_, fun closed => ⟨?_, (Future.settles run).2.2 closed⟩⟩
  · by_contra opened
    have none := satisfied.1
    rw [inv.opened opened] at none
    cases none
  rcases inv.closed closed with settled | ⟨p, result, top, storing⟩
  · unfold Future.State.settled at settled
    split at settled
    · cases settled
    · rename_i call by_
      rw [by_]
      rfl
  · obtain ⟨-, -, call, by_, -⟩ := inv.storing p result top storing
    rw [by_]
    rfl

namespace Inv

omit [DecidableEq O] [DecidableEq S] in
theorem start : Inv ({} : State O S A P T E) := ⟨fun _ => ⟨[], .refl⟩, nofun, nofun⟩

omit [DecidableEq O] [DecidableEq S] in
theorem unowned (inv : Inv u) (fresh : ∀ shared, made = some shared → u.made shared = false)
    (shared : S) (new : made = some shared) : ¬ Owned u.owner shared := by
  intro here
  have old := inv.owned shared here
  rw [fresh shared new] at old
  cases old

theorem step (inv : Inv u) (took : u.step action = some t) : Inv t := by
  cases inv.effect took with
  | change op moved made future fresh =>
    obtain ⟨unique, owned⟩ := step_owned inv.unique moved (inv.unowned fresh)
    refine ⟨by rw [future]; exact inv.reached, unique, fun shared here => ?_⟩
    rw [made]
    exact ((owned shared).mp here).symm.imp_left fun old => inv.owned shared old.1
  | future shared label moved others _ owner made =>
    refine ⟨fun other => ?_, by rw [owner]; exact inv.unique, by rw [owner, made]; exact inv.owned⟩
    rcases eq_or_ne other shared with rfl | away
    · obtain ⟨labels, run⟩ := inv.reached other
      exact ⟨_, run.next trivial moved⟩
    · rw [others other away]
      exact inv.reached other

/-- Without its owner a state is left open by an assignment only. -/
theorem kept_step_iff (inv : Inv u) (kept : Kept u) (took : u.step action = some t) :
    Kept t ↔ Spares u action := by
  have inv' := inv.step took
  have satisfied : ∀ {v : State O S A P T E} {shared}, Inv v →
      (Satisfied (v.future shared) ↔ (v.future shared).waiters = .closed) := by
    intro v shared inv
    obtain ⟨labels, run⟩ := inv.reached shared
    exact satisfied_iff run
  cases inv.effect took with
  | change op moved made future fresh released assigns =>
    have owned := (Handles.step_owned inv.unique moved (inv.unowned fresh)).2
    constructor
    · intro kept'
      cases action with
      | moveAssign o source =>
        intro apart shared here
        cases (assigns o source).mp rfl
        have dropped : Handles.dropped u.owner (.moveAssign o source) = some shared := by
          simp only [Handles.dropped, if_neg apart, here, join_some]
        have lost : ¬ Handles.Owned t.owner shared := by
          rw [owned shared]
          rintro (⟨⟨⟩⟩ | ⟨-, -, other⟩)
          exact other dropped
        have settled := kept' shared ((made shared).mpr (.inl (inv.owned shared ⟨o, here⟩))) lost
        rwa [satisfied inv', future] at settled
      | _ => trivial
    · intro spares shared here lost
      rw [future, satisfied inv]
      by_cases old : Handles.Owned u.owner shared
      · -- somebody has given it up
        by_contra opened
        refine lost ((owned shared).mpr (.inr ⟨old, fun gone => opened (released shared gone), ?_⟩))
        intro dropped
        cases op with
        | moveAssign o source =>
          cases (assigns o source).mpr rfl
          simp only [Handles.dropped] at dropped
          split at dropped
          · cases dropped
          · exact opened (spares ‹_› shared (join_eq_some_iff.mp dropped))
        | _ => cases dropped
      · have before : u.made shared := by
          refine ((made shared).mp here).resolve_right fun new => lost ?_
          exact (owned shared).mpr (.inl new)
        exact (satisfied inv).mp (kept shared before old)
  | future shared label moved others _ owner made quiet =>
    refine iff_of_true (fun other here lost => ?_) ?_
    · rw [made] at here
      rw [owner] at lost
      rw [satisfied inv']
      have before := (satisfied inv).mp (kept other here lost)
      rcases eq_or_ne other shared with rfl | away
      · exact Future.closed_step before moved
      · rwa [others other away]
    · cases action with
      | moveAssign o source => exact absurd rfl (quiet o source)
      | _ => trivial

end Inv

/-- At every point of a run of promises, a shared state that no promise owns any more was satisfied,
and nobody who awaits it stays suspended, exactly if no promise was overwritten that had a shared
state which was not satisfied. -/
theorem satisfied_unowned_iff (run : Reaches labels u) :
    (∀ before v, before <+: labels → exec State.step {} before = some v →
      ∀ shared, v.made shared → ¬ Owned v.owner shared → Satisfied (v.future shared)) ↔
      Run State.step Spares {} labels u :=
  run.always_iff (I := Inv) .start nofun (fun inv stepped => inv.step stepped)
    fun inv kept stepped => inv.kept_step_iff kept stepped

/-- A promise with a waiter is moved into another object, which is destroyed. -/
def movedAndBroken : List (Action Bool Nat Nat Bool Nat Nat) :=
  [.construct false 0, .run 0 (.await 0), .run 0 (.advance 0 false), .run 0 (.advance 0 false),
    .run 0 (.advance 0 false), .moveConstruct true false, .destroy true false, .run 0 (.set false),
    .run 0 (.set false), .run 0 (.set false), .run 0 (.set false), .destroyed true]

theorem satisfied_unowned_broken : ∃ u : State Bool Nat Nat Bool Nat Nat,
    exec State.step {} movedAndBroken = some u ∧
      (u.future 0).awaiter 0 = .scheduled ∧ ¬ Owned u.owner 0 ∧
      Satisfied (u.future 0) := by
  obtain ⟨u, done, scheduled, made, lost⟩ :
      ∃ u : State Bool Nat Nat Bool Nat Nat,
        exec State.step {} movedAndBroken = some u ∧
          (u.future 0).awaiter 0 = .scheduled ∧ u.made 0 ∧ ∀ o, u.owner o ≠ some (some 0) :=
    exec_any (by decide)
  have run : Reaches movedAndBroken u := .of_exec done
  have spared : Run State.step Spares {} movedAndBroken u := by
    have unassigned : ∀ label ∈ movedAndBroken, ∀ o p, label ≠ .moveAssign o p := by
      simp [movedAndBroken]
    refine (run.restrict unassigned).relax fun {t label} other => ?_
    cases label with
    | moveAssign o p => exact absurd rfl (other o p)
    | _ => trivial
  have lost : ¬ Owned u.owner 0 := fun ⟨o, here⟩ => lost o here
  exact ⟨u, done, scheduled, lost,
    (satisfied_unowned_iff run).mpr spared _ u List.prefix_rfl done 0 made lost⟩

def unused : Future.SetterPC A T E → Bool
  | .idle => true
  | _ => false

/-- Somebody awaits a shared state that nobody can satisfy. -/
structure Abandoned (shared : S) (a : A) (u : State O S A P T E) : Prop where
  made : u.made shared
  lost : ¬ Owned u.owner shared
  opened : (u.future shared).waiters ≠ .closed
  unused : ∀ p, unused ((u.future shared).setter p)
  suspended : (u.future shared).awaiter a = .suspended

/-- Awaiters that come and go leave the list open, and the one that is suspended where it is. -/
theorem inside_step {f g : Future.State A P T E} (took : Future.step f label = some g)
    (within : inside label) (opened : f.waiters ≠ .closed) (idle : ∀ p, unused (f.setter p))
    (suspended : f.awaiter a = .suspended) :
    g.waiters ≠ .closed ∧ (∀ p, unused (g.setter p)) ∧ g.awaiter a = .suspended := by
  have stays : ∀ {b pc}, f.awaiter b ≠ .suspended →
      update f.awaiter b pc a = .suspended := by
    intro b pc other
    rw [update_of_ne ?_, suspended]
    rintro rfl
    exact other suspended
  -- a setter that has begun is none of the unused ones
  have began : ∀ {p pc}, f.setter p = pc → unused pc = false → False := by
    rintro p pc rfl used
    cases used.symm.trans (idle p)
  cases Future.effect_of_step took with
  | call | destroyClosed | destroyOpen => cases within
  | lost at_ | wonVoid at_ | won at_ | store at_ | finished at_ | woken at_ =>
    exact (began at_ rfl).elim
  | ready _ closed => exact absurd closed opened
  | await here | unready here | resume here => exact ⟨opened, idle, stays (by simp [here])⟩
  | pushed here => exact ⟨nofun, idle, stays (by simp [here])⟩
  | load here =>
    cases head : f.waiters with
    | closed => exact absurd head opened
    | list top => exact ⟨opened, idle, stays (by simp [here])⟩
  | retry here =>
    cases head : f.waiters with
    | closed => exact absurd head opened
    | list top => exact ⟨nofun, idle, stays (by simp [here])⟩

theorem Abandoned.step (abandoned : Abandoned shared a u) (inv : Inv u)
    (took : u.step action = some t) : Abandoned shared a t := by
  obtain ⟨known, lost, opened, idle, suspended⟩ := abandoned
  cases inv.effect took with
  | change op moved made future fresh =>
    have owned := (step_owned inv.unique moved (inv.unowned fresh)).2
    refine ⟨(made shared).mpr (.inl known), fun here => ?_, by rwa [future], by rwa [future],
      by rwa [future]⟩
    rcases (owned shared).mp here with new | ⟨old, -⟩
    · rw [fresh shared new] at known
      cases known
    · exact lost old
  | future other label moved others needs owner made =>
    rcases eq_or_ne shared other with rfl | away
    · obtain ⟨opened', idle', suspended'⟩ :=
        inside_step moved (needs.resolve_right lost) opened idle suspended
      exact ⟨by rwa [made], by rwa [owner], opened', idle', suspended'⟩
    · have same := others shared away
      exact ⟨by rwa [made], by rwa [owner], by rwa [same], by rwa [same], by rwa [same]⟩

theorem Abandoned.run (abandoned : Abandoned shared a u) (inv : Inv u)
    (run : Run State.step free u labels t) : (t.future shared).awaiter a = .suspended := by
  have kept := run.invariant (P := fun v => Inv v ∧ Abandoned shared a v) ⟨inv, abandoned⟩
    fun ⟨inv, abandoned⟩ _ took => ⟨inv.step took, abandoned.step inv took⟩
  exact kept.2.suspended

def replaced : List (Action Bool Nat Nat Bool Nat Nat) :=
  [.construct false 0, .run 0 (.await 0), .run 0 (.advance 0 false), .run 0 (.advance 0 false),
    .run 0 (.advance 0 false), .construct true 1, .moveAssign false true]

theorem replaced_suspended : ∃ u : State Bool Nat Nat Bool Nat Nat,
    exec State.step {} replaced = some u ∧ u.made 0 ∧
      ¬ Owned u.owner 0 ∧ (u.future 0).waiters ≠ .closed ∧
      ∀ more t, Run State.step free u more t →
        (t.future 0).awaiter 0 = .suspended := by
  obtain ⟨u, done, made, lost, opened, suspended, idle⟩ :
      ∃ u : State Bool Nat Nat Bool Nat Nat,
        exec State.step {} replaced = some u ∧ u.made 0 ∧
          (∀ o, u.owner o ≠ some (some 0)) ∧ (u.future 0).waiters ≠ .closed ∧
          (u.future 0).awaiter 0 = .suspended ∧ ∀ p, unused ((u.future 0).setter p) :=
    exec_any (by decide)
  have lost : ¬ Owned u.owner 0 := fun ⟨o, here⟩ => lost o here
  have run : Reaches replaced u := .of_exec done
  have inv : Inv u := run.invariant .start fun inv _ stepped => inv.step stepped
  have abandoned : Abandoned 0 0 u := ⟨made, lost, opened, idle, suspended⟩
  exact ⟨u, done, made, lost, opened, fun more t run => abandoned.run inv run⟩

end Nitrocoro.PromiseOwners
