import Mathlib.Logic.Basic

/-! The iteration of a `Generator`. The body is any coroutine: what it does when it is resumed at a
point of type `S`, up to its next suspension, is `run`. -/
namespace Nitrocoro.Generator
variable {S T E : Type}

inductive Stop (S T E : Type) where
  | yields (value : T) (next : S)
  | returns
  | throws (e : E)

structure Frame (S T E : Type) where
  point : S
  value : Option T := none
  exception : Option E := none
  done : Bool := false

variable (run : S → Stop S T E)

def resume (frame : Frame S T E) : Frame S T E :=
  match run frame.point with
  | .yields value next => { frame with point := next, value := some value }
  | .returns => { frame with done := true }
  | .throws e => { frame with exception := some e, done := true }

/-- `begin()`. A null handle is in an empty generator, and in the iterator `end()`. -/
def begin : Option (Frame S T E) → Except E (Option (Frame S T E))
  | none => .ok none
  | some frame =>
    let frame := resume run frame
    if frame.done then .ok none else frame.exception.elim (.ok (some frame)) .error

/-- `operator++`. -/
def increment (frame : Frame S T E) : Except E (Option (Frame S T E)) :=
  let frame := resume run frame
  if frame.done then frame.exception.elim (.ok none) .error else .ok (some frame)

/-- A range-based `for` that breaks if there are more than `n` values: those that it has seen, and
what it throws. -/
def rangeFor : Nat → Except E (Option (Frame S T E)) → List T × Option E
  | _, .error e => ([], some e)
  | _, .ok none | 0, .ok (some _) => ([], none)
  | n + 1, .ok (some frame) =>
    (rangeFor n (increment run frame)).map (frame.value.toList ++ ·) id

/-- What the body does: up to `n` values, and what it throws behind them. -/
def produces (n : Nat) (point : S) : List T × Option E :=
  match run point, n with
  | .returns, _ | .yields .., 0 => ([], none)
  | .throws e, _ => ([], some e)
  | .yields value next, n + 1 => (produces n next).map (value :: ·) id

theorem rangeFor_increment (n : Nat) (point : S) (old : Option T) :
    rangeFor run n (increment run { point, value := old }) = produces run n point := by
  induction n generalizing point old with
  | zero =>
    unfold produces
    cases stop : run point <;> simp [increment, resume, stop, rangeFor]
  | succ n ih =>
    unfold produces
    cases stop : run point with
    | returns | throws => simp [increment, resume, stop, rangeFor]
    | yields value next =>
      have moved : increment run { point, value := old } =
          .ok (some { point := next, value := some value }) := by simp [increment, resume, stop]
      rw [moved, rangeFor, ih]
      rfl

/-- The loop sees what the body yields and throws what the body throws, exactly if the body does not
throw before its first `co_yield`: `begin()` takes that for a body without values. -/
theorem rangeFor_iff (n : Nat) (point : S) :
    (rangeFor run n (begin run (some { point })) = produces run n point ↔
      ∀ e, run point ≠ .throws e) ∧
    ∀ e, run point = .throws e → rangeFor run n (begin run (some { point })) = ([], none) := by
  cases stop : run point with
  | returns | throws =>
    unfold produces
    simp [begin, resume, stop, rangeFor]
  | yields value next =>
    -- a body that gets to its first value is resumed by `begin()` as by `operator++`
    have first : begin run (some { point }) = increment run { point } := by
      simp [begin, increment, resume, stop]
    simp [first, rangeFor_increment]

end Nitrocoro.Generator
