import Nitrocoro.Lib.Handles
import Nitrocoro.Lib.Transition

/-! The special members of `Socket`, `Task` and `Generator`, whose objects own a descriptor or a
coroutine frame. The destructor closes what the object has, and so does an assignment, unless the
object is assigned to itself. -/
namespace Nitrocoro.Owners
open Transition Handles
variable {O R : Type} [DecidableEq O]

structure State (O R : Type) where
  held : Held O R := fun _ => none
  /-- History: what was opened and closed, in order. -/
  opened : List R := []
  closed : List R := []

/-- The calls of `::close`, or of `destroy` on a frame. -/
def closes (held : Held O R) (op : Op O R) : List R :=
  (released held op).toList ++ (dropped held op).toList

def State.step (s : State O R) (op : Op O R) : Option (State O R) :=
  (Handles.step s.held op).map fun held =>
    { held, opened := s.opened ++ op.made.toList, closed := s.closed ++ closes s.held op }

/-- A constructor gets what no object has: a number is given out again only after it was closed.
There is no member that resets an object. -/
def Member (s : State O R) : Op O R → Prop
  | .construct _ resource => ∀ r, resource = some r → ¬ Owned s.held r
  | .reset _ => False
  | _ => True

abbrev Reaches (ops : List (Op O R)) (s : State O R) : Prop := Run State.step Member {} ops s

variable [DecidableEq R] {held : Held O R} {s t : State O R}

theorem count_closes : (closes held op).count r =
    if released held op = some r ∨ dropped held op = some r then 1 else 0 := by
  unfold closes
  have count : ∀ resource : Option R,
      resource.toList.count r = if resource = some r then 1 else 0 := by
    intro resource
    cases resource <;> simp [List.count_singleton]
  rw [List.count_append, count, count]
  cases op <;> grind [released, dropped]

omit [DecidableEq R] in
theorem owned_of_closes (gone : released held op = some r ∨ dropped held op = some r) :
    Owned held r ∧ op.made = none := by
  cases op with
  | construct | moveConstruct => simp [released, dropped] at gone
  | moveAssign o source =>
    have here : (held o).join = some r := by
      simp only [released, dropped] at gone
      grind
    exact ⟨⟨o, Option.join_eq_some_iff.mp here⟩, rfl⟩
  | reset o | destroy o =>
    have here : (held o).join = some r := by simpa [released, dropped] using gone
    exact ⟨⟨o, Option.join_eq_some_iff.mp here⟩, rfl⟩

/-- What has an owner was opened once more than closed, and anything else as often. -/
structure Inv (s : State O R) : Prop where
  unique : Unique s.held
  balance : ∀ r, s.opened.count r = s.closed.count r + 1 ∧ Owned s.held r ∨
    s.opened.count r = s.closed.count r ∧ ¬ Owned s.held r

theorem Inv.step (inv : Inv s) (ok : Member s op) (took : s.step op = some t) : Inv t := by
  obtain ⟨held, moved, rfl⟩ := Option.map_eq_some_iff.mp took
  have fresh : ∀ r, op.made = some r → ¬ Owned s.held r := by
    cases op with
    | construct => exact ok
    | _ => exact nofun
  obtain ⟨unique, owned⟩ := step_owned inv.unique moved fresh
  refine ⟨unique, fun r => ?_⟩
  have before := inv.balance r
  have gone : released s.held op = some r ∨ dropped s.held op = some r →
      Owned s.held r ∧ op.made = none := owned_of_closes
  rw [owned r, List.count_append, List.count_append, count_closes]
  cases made : op.made with
  | none => grind
  | some new => grind [List.count_singleton]

/-- Each descriptor and each frame has one owner at most. It is closed once for each time that it
was opened: not as long as it has an owner, and by the time it has none. -/
theorem closed_once {ops : List (Op O R)} (run : Reaches ops s) : Unique s.held ∧
    ∀ r, s.opened.count r = s.closed.count r + 1 ∧ Owned s.held r ∨
      s.opened.count r = s.closed.count r ∧ ¬ Owned s.held r := by
  have start : Inv ({} : State O R) := by
    refine ⟨fun _ _ _ here => ?_, fun _ => .inr ⟨rfl, ?_⟩⟩
    · cases here
    · rintro ⟨_, ⟨⟩⟩
  have inv := run.invariant start fun inv ok took => inv.step ok took
  exact ⟨inv.unique, inv.balance⟩

/-- A socket is moved to another one, which closes its own descriptor. -/
theorem closed_once_assigned : ∃ ops, ∃ s : State Bool Nat, Reaches ops s ∧ s.closed = [3] ∧
    ∀ r, s.opened.count r = s.closed.count r + 1 ∧ Owned s.held r ∨
      s.opened.count r = s.closed.count r ∧ ¬ Owned s.held r := by
  have first : Reaches ([] ++ [.construct true (some 3)]) (_ : State Bool Nat) :=
    .next .refl (by rintro r - ⟨_, ⟨⟩⟩) rfl
  have second : Reaches (_ ++ [.construct false (some 4)]) _ :=
    first.next (by rintro r ⟨⟩ ⟨⟨⟩, ⟨⟩⟩) rfl
  have third : Reaches (_ ++ [.moveAssign true false]) _ := second.next trivial rfl
  exact ⟨_, _, third, rfl, (closed_once third).2⟩

end Nitrocoro.Owners
