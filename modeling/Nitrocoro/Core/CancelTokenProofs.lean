import Nitrocoro.Core.CancelAwaiters

/-! The callbacks of `onCancel`: how often each one is called, and what `unregister` prevents. A
callback is followed on its own through the places that hold it: the call that registers it, the
list, the call of `cancel()`, and a function posted to a scheduler. -/
namespace Nitrocoro.CancelState
open Function Transition State
variable {A P R : Type} [DecidableEq A] [DecidableEq P] [DecidableEq R]
variable {s t u : State A P R} {r : R}

inductive Stage where
  | none
  | test
  | start
  deriving DecidableEq

namespace Work

def left : Work A R → List R
  | .callbacks left _ => left
  | .test _ left _ => left
  | .start _ left _ => left
  | .swap _ => []
  | .resume _ => []

def stage (r : R) : Work A R → Stage
  | .test q _ _ => if q = r then .test else .none
  | .start q _ _ => if q = r then .start else .none
  | .swap _ => .none
  | .callbacks _ _ => .none
  | .resume _ => .none

end Work

structure Life where
  reg : RegPC
  flag : Bool
  task : TaskPC
  runs : Nat
  /-- How often it is in `callbacks_`. -/
  listed : Nat
  /-- How often it is in what is left of the loop. -/
  left : Nat
  stage : Stage

def life (s : State A P R) (r : R) : Life where
  reg := s.reg r
  flag := s.flag r
  task := s.task r
  runs := s.runs r
  listed := s.callbacks.count r
  left := s.work.left.count r
  stage := s.work.stage r

section
variable {q : R}

omit [DecidableEq A] [DecidableEq P]

theorem life_setReg : life (s.setReg q pc) r =
    if r = q then { life s r with reg := pc } else life s r := by
  unfold life setReg
  split <;> simp [*]

theorem life_setTask : life (s.setTask q pc) r =
    if r = q then { life s r with task := pc } else life s r := by
  unfold life setTask
  split <;> simp [*]

theorem life_start : life (s.start q) r =
    if r = q then { life s r with runs := s.runs r + 1 } else life s r := by
  unfold life start
  split <;> simp [*]

theorem life_testAndSet : life (s.testAndSet q) r =
    if r = q then { life s r with flag := true } else life s r := by
  unfold life testAndSet
  split <;> simp [*]

end

inductive Moves (v : Life) : Life → Prop where
  | same : Moves v v
  | onCancel : v.reg = .idle → Moves v { v with reg := .adding }
  | push : v.reg = .adding →
      Moves v { v with reg := .registered, listed := v.listed + 1 }
  | late : v.reg = .adding → Moves v { v with reg := .late }
  | post : v.reg = .late → Moves v { v with reg := .empty, task := .queued false }
  | inline : v.reg = .late → Moves v { v with reg := .lateStart }
  | lateStart : v.reg = .lateStart → Moves v { v with reg := .empty, runs := v.runs + 1 }
  | unregister : v.reg = .registered → Moves v { v with reg := .unregistered, flag := true }
  | forget : v.reg = .empty → Moves v { v with reg := .unregistered }
  | swap : v.left = 0 → Moves v { v with listed := 0, left := v.listed }
  | dispatch : v.left = n + 1 → v.stage = .none →
      Moves v { v with left := n, task := .queued true }
  | test : v.left = n + 1 → v.stage = .none → Moves v { v with left := n, stage := .test }
  | lost : v.stage = .test → v.flag → Moves v { v with stage := .none }
  | won : v.stage = .test → v.flag = false → Moves v { v with stage := .start, flag := true }
  | call : v.stage = .start → Moves v { v with stage := .none, runs := v.runs + 1 }
  | runLate : v.task = .queued false → Moves v { v with task := .finished, runs := v.runs + 1 }
  | runLost : v.task = .queued true → v.flag → Moves v { v with task := .finished }
  | runWon : v.task = .queued true → v.flag = false →
      Moves v { v with task := .start, flag := true }
  | runStart : v.task = .start → Moves v { v with task := .finished, runs := v.runs + 1 }

structure Winner (s : State A P R) : Prop where
  opened : s.waiters ≠ .closed →
    s.work = .resume none ∧ ∀ p, s.canceler p = .idle ∨ s.canceler p = .close
  closed : s.waiters = .closed → s.work = .resume none ∨ (∃ p, s.canceler p = .working) ∨
    ∃ p left waiters, s.canceler p = .threw ∧ s.work = .callbacks left waiters
  swapped : s.waiters = .closed → s.callbacks = [] ∨ ∃ waiters, s.work = .swap waiters

namespace Winner

omit [DecidableEq A] [DecidableEq P] [DecidableEq R]

theorem start : Winner ({} : State A P R) where
  opened _ := ⟨rfl, fun _ => .inl rfl⟩
  closed := nofun
  swapped := nofun

end Winner

section
variable {q : R}

omit [DecidableEq A] [DecidableEq P]

theorem moves_only {v : Life} (now : life t r = if r = q then v else life s r)
    (moves : r = q → Moves (life s r) v) : Moves (life s r) (life t r) := by
  rw [now]
  split
  · rename_i same
    exact moves same
  · exact .same

theorem life_push : life { s with callbacks := s.callbacks ++ [q] } r =
    if r = q then { life s r with listed := (life s r).listed + 1 } else life s r := by
  unfold life
  split
  · simp [*]
  · rename_i other
    simp [Ne.symm other]

theorem moves_add (took : s.add q own = some t) : Moves (life s r) (life t r) := by
  unfold add at took
  split at took
  · rename_i adding
    split at took <;> cases took
    · apply moves_only life_setReg
      rintro rfl
      exact .late adding
    refine moves_only (q := q) (v := { life s r with
      reg := .registered, listed := (life s r).listed + 1 }) ?_ ?_
    · rw [life_setReg, life_push]
      split <;> rfl
    · rintro rfl
      exact .push adding
  · rename_i late
    split at took <;> cases took
    · refine moves_only (q := q) (v := { life s r with reg := .empty, task := .queued false }) ?_ ?_
      · rw [life_setReg, life_setTask]
        split <;> rfl
      · rintro rfl
        exact .post late
    · apply moves_only life_setReg
      rintro rfl
      exact .inline late
  · rename_i starting
    cases took
    refine moves_only (q := q) (v := { life s r with reg := .empty, runs := s.runs r + 1 }) ?_ ?_
    · rw [life_setReg, life_start]
      split <;> rfl
    · rintro rfl
      exact .lateStart starting
  all_goals cases took

theorem life_called : life ((s.start q).setTask q .finished) r =
    if r = q then { life s r with task := .finished, runs := s.runs r + 1 } else life s r := by
  rw [life_setTask, life_start]
  split <;> rfl

theorem moves_run (took : s.run q = some t) : Moves (life s r) (life t r) := by
  unfold run at took
  split at took
  · rename_i queued
    cases took
    apply moves_only life_called
    rintro rfl
    exact .runLate queued
  · rename_i queued
    split at took <;> cases took <;> rename_i flag
    · apply moves_only life_setTask
      rintro rfl
      exact .runLost queued flag
    refine moves_only (q := q) (v := { life s r with task := .start, flag := true }) ?_ ?_
    · rw [life_setTask, life_testAndSet]
      split <;> rfl
    · rintro rfl
      exact .runWon queued (Bool.not_eq_true _ ▸ flag)
  · rename_i starting
    cases took
    apply moves_only life_called
    rintro rfl
    exact .runStart starting
  all_goals cases took

theorem life_goto [DecidableEq A] : life (s.goto a pc) r = life s r := rfl

theorem life_setCanceler [DecidableEq P] : life (s.setCanceler p pc) r = life s r :=
  rfl

theorem moves_proceed [DecidableEq A] [DecidableEq P] (took : s.proceed p own = some t) :
    Moves (life s r) (life t r) := by
  unfold proceed at took
  split at took
  · rename_i waiters work
    cases took
    have left : (life s r).left = 0 := by simp [life, work, Work.left]
    have swapped := Moves.swap left
    simpa [life, work, Work.left, Work.stage] using swapped
  · rename_i waiters work
    cases took
    have untouched : life { s with work := .resume waiters } r = life s r := by
      simp [life, work, Work.left, Work.stage]
    rw [untouched]
    exact .same
  · rename_i q left waiters work
    have stage : (life s r).stage = .none := by simp [life, work, Work.stage]
    have before : r = q → (life s r).left = left.count r + 1 := by
      rintro rfl
      simp [life, work, Work.left]
    split at took <;> cases took
    · refine moves_only
        ?_ fun same => .dispatch (before same) stage
      rw [life_setTask]
      split <;> grind -ring -linarith [life, Work.left, Work.stage]
    · refine moves_only
        ?_ fun same => .test (before same) stage
      split <;> grind -ring -linarith [life, Work.left, Work.stage]
  · rename_i q left waiters work
    have stage : r = q → (life s r).stage = .test := by
      rintro rfl
      simp [life, work, Work.stage]
    split at took <;> cases took
    · rename_i flag
      refine moves_only ?_ fun same =>
        .lost (stage same) (same ▸ flag)
      split <;> grind -ring -linarith [life, Work.left, Work.stage]
    · rename_i flag
      refine moves_only ?_
        fun same => .won (stage same) (same ▸ Bool.not_eq_true _ ▸ flag)
      rw [life_testAndSet]
      split <;> grind -ring -linarith [life, Work.left, Work.stage]
  · rename_i q left waiters work
    cases took
    refine moves_only (q := q) (v := { life s r with stage := .none, runs := s.runs r + 1 }) ?_ ?_
    · rw [life_start]
      split <;> grind -ring -linarith [life, Work.left, Work.stage]
    · rintro rfl
      exact .call (by simp [life, work, Work.stage])
  · cases took
    exact .same
  rename_i node work
  cases took
  have untouched : life { s with work := .resume (s.next node) } r = life s r := by
    simp [life, work, Work.left, Work.stage]
  rw [life_goto, untouched]
  exact .same

end

omit [DecidableEq P] [DecidableEq R] in
theorem advance_frame (took : s.advance a spurious = some t) :
    ∃ waiters next awaiter, t = { s with waiters, next, awaiter } ∧
      (waiters = .closed ↔ s.waiters = .closed) := by
  have pushed : ∀ (s : State A P R) head, ∃ pc, s.pushSaw a head = s.goto a pc := by
    intro s head
    cases head <;> exact ⟨_, rfl⟩
  simp only [advance] at took
  split at took
  · split at took <;> cases took <;> exact ⟨_, _, _, rfl, .rfl⟩
  · cases took
    obtain ⟨pc, eq⟩ := pushed s s.waiters
    exact ⟨_, _, _, eq, .rfl⟩
  · rename_i cur _
    split at took <;> cases took
    · rename_i guard
      refine ⟨_, _, _, rfl, ?_⟩
      rw [guard.1]
      exact ⟨nofun, nofun⟩
    · obtain ⟨pc, eq⟩ := pushed { s with next := update s.next a cur } s.waiters
      exact ⟨_, _, _, eq, .rfl⟩
  all_goals cases took

theorem moves_cancel (winner : Winner s) (took : s.cancel p own = some t) :
    Moves (life s r) (life t r) := by
  unfold cancel at took
  split at took
  · split at took <;> cases took
    · exact .same
    rename_i top open_
    have idle := (winner.opened (by rw [open_]; exact nofun)).1
    have untouched : life { s with waiters := .closed, work := .swap top } r = life s r := by
      simp [life, idle, Work.left, Work.stage]
    rw [life_setCanceler, untouched]
    exact .same
  · exact moves_proceed took
  all_goals cases took

omit [DecidableEq A] in
theorem moves_throws (took : s.throws p = some t) : Moves (life s r) (life t r) := by
  unfold throws at took
  split at took
  · rename_i q left waiters _ work
    cases took
    refine moves_only (q := q) (v := { life s r with stage := .none, runs := s.runs r + 1 }) ?_ ?_
    · rw [life_setCanceler, life_start]
      split <;> grind -ring -linarith [life, Work.left, Work.stage]
    · rintro rfl
      exact .call (by simp [life, work, Work.stage])
  · cases took

theorem moves_unregister (took : s.step (.unregister q) = some t) :
    Moves (life s r) (life t r) := by
  simp only [step] at took
  split at took <;> cases took
  · rename_i registered
    refine moves_only (q := q) (v := { life s r with reg := .unregistered, flag := true }) ?_ ?_
    · rw [life_setReg, life_testAndSet]
      split <;> rfl
    · rintro rfl
      exact .unregister registered
  · rename_i empty
    apply moves_only (q := q) (v := { life s r with reg := .unregistered }) life_setReg
    rintro rfl
    exact .forget empty

theorem moves_step (winner : Winner s) (took : s.step label = some t) (r : R) :
    Moves (life s r) (life t r) := by
  cases label with
  | await | resume | call =>
    obtain ⟨-, rfl⟩ := of_ite took
    exact .same
  | advance a spurious =>
    obtain ⟨-, -, -, rfl, -⟩ := advance_frame took
    exact .same
  | cancel p own => exact moves_cancel winner took
  | throws p => exact moves_throws took
  | onCancel q sched =>
    obtain ⟨idle, rfl⟩ := of_ite took
    apply moves_only (q := q) (v := { life s r with reg := .adding }) life_setReg
    rintro rfl
    exact .onCancel idle
  | add q own => exact moves_add took
  | unregister q => exact moves_unregister took
  | run q => exact moves_run took

namespace Winner

section
variable (winner : Winner s)
include winner

omit [DecidableEq P] [DecidableEq R] in
theorem advance (took : s.advance a spurious = some t) : Winner t := by
  obtain ⟨waiters, -, -, rfl, closed⟩ := advance_frame took
  constructor
  · intro open_
    exact winner.opened fun was => open_ (closed.mpr was)
  · intro now
    exact winner.closed (closed.mp now)
  · intro now
    exact winner.swapped (closed.mp now)

omit [DecidableEq P] [DecidableEq R] in
theorem closed_of_working (working : s.canceler p = .working) : s.waiters = .closed := by
  by_contra open_
  rcases (winner.opened open_).2 p with idle | idle <;> cases working.symm.trans idle

omit [DecidableEq A] [DecidableEq R] in
theorem closed_elsewhere (closed : s.waiters = .closed)
    (here : s.canceler p ≠ .working ∧ s.canceler p ≠ .threw) :
    s.work = .resume none ∨ (∃ q, (s.setCanceler p pc).canceler q = .working) ∨
      ∃ q left waiters, (s.setCanceler p pc).canceler q = .threw ∧
        s.work = .callbacks left waiters := by
  have same : ∀ q, s.canceler q = .working ∨ s.canceler q = .threw →
      (s.setCanceler p pc).canceler q = s.canceler q := by
    intro q won
    apply update_of_ne
    rintro rfl
    exact won.elim here.1 here.2
  rcases winner.closed closed with idle | ⟨q, working⟩ | ⟨q, left, waiters, threw, work⟩
  · exact .inl idle
  · exact .inr (.inl ⟨q, (same q (.inl working)).trans working⟩)
  · exact .inr (.inr ⟨q, left, waiters, (same q (.inr threw)).trans threw, work⟩)

omit [DecidableEq P] [DecidableEq R] in
theorem work (working : s.canceler p = .working)
    (waiters : t.waiters = s.waiters) (canceler : t.canceler p = .working)
    (callbacks : t.callbacks = [] ∨ t.callbacks = s.callbacks ∧ ∀ top, s.work ≠ .swap top) :
    Winner t := by
  have closed := winner.closed_of_working working
  constructor
  · intro open_
    exact absurd (waiters.trans closed) open_
  · exact fun _ => .inr (.inl ⟨p, canceler⟩)
  intro _
  rcases callbacks with empty | ⟨same, unswapped⟩
  · exact .inl empty
  refine .inl (same.trans ?_)
  rcases winner.swapped closed with empty | ⟨top, swap⟩
  · exact empty
  · exact absurd swap (unswapped top)

theorem proceed (working : s.canceler p = .working)
    (took : s.proceed p own = some t) : Winner t := by
  unfold State.proceed at took
  split at took
  · cases took
    exact winner.work working rfl working (.inl rfl)
  all_goals
    rename_i work
    have unswapped : ∀ top, s.work ≠ .swap top := by
      rw [work]
      exact fun _ => nofun
  case h_6 =>
    cases took
    have closed := winner.closed_of_working working
    exact ⟨fun open_ => absurd closed open_, fun _ => .inl work, winner.swapped⟩
  all_goals
    repeat' split at took
    all_goals
      cases took
      exact winner.work working rfl working (.inr ⟨rfl, unswapped⟩)

theorem cancel (took : s.cancel p own = some t) : Winner t := by
  unfold State.cancel at took
  split at took
  · rename_i here
    split at took <;> cases took
    · rename_i closed
      refine ⟨fun open_ => absurd closed open_, fun _ => ?_, winner.swapped⟩
      exact winner.closed_elsewhere closed (by simp [here])
    · exact ⟨fun open_ => absurd rfl open_, fun _ => .inr (.inl ⟨p, update_self ..⟩),
        fun _ => .inr ⟨_, rfl⟩⟩
  · rename_i working
    exact winner.proceed working took
  all_goals cases took

theorem throws (took : s.throws p = some t) : Winner t := by
  unfold State.throws at took
  split at took
  · rename_i r left waiters working work
    cases took
    have closed := winner.closed_of_working working
    refine ⟨fun open_ => absurd closed open_,
      fun _ => .inr (.inr ⟨p, left, waiters, update_self .., rfl⟩), fun _ => .inl ?_⟩
    refine (winner.swapped closed).resolve_right ?_
    rintro ⟨top, swap⟩
    cases work.symm.trans swap
  · cases took

omit [DecidableEq A] [DecidableEq P] in
theorem add (took : s.add q own = some t) : Winner t := by
  unfold State.add at took
  split at took
  · split at took <;> cases took
    · exact { winner with }
    · rename_i top open_
      refine ⟨winner.opened, winner.closed, fun closed => ?_⟩
      cases open_.symm.trans closed
  · split at took <;> cases took <;> exact { winner with }
  · cases took
    exact { winner with }
  all_goals cases took

omit [DecidableEq A] [DecidableEq P] in
theorem run (took : s.run q = some t) : Winner t := by
  unfold State.run at took
  split at took
  · cases took
    exact { winner with }
  · split at took <;> cases took <;> exact { winner with }
  · cases took
    exact { winner with }
  all_goals cases took

omit [DecidableEq A] [DecidableEq R] in
theorem call (idle : s.canceler p = .idle) : Winner (s.setCanceler p .close) := by
  refine ⟨fun open_ => ⟨(winner.opened open_).1, fun q => ?_⟩, fun closed => ?_, winner.swapped⟩
  · simp only [setCanceler, update_apply]
    split
    · exact .inr rfl
    · exact (winner.opened open_).2 q
  · exact winner.closed_elsewhere closed (by simp [idle])

theorem step (took : s.step label = some t) : Winner t := by
  cases label with
  | await | resume | onCancel =>
    obtain ⟨-, rfl⟩ := of_ite took
    exact { winner with }
  | advance a spurious => exact winner.advance took
  | call p =>
    obtain ⟨idle, rfl⟩ := of_ite took
    exact winner.call idle
  | cancel p own => exact winner.cancel took
  | throws p => exact winner.throws took
  | add q own => exact winner.add took
  | unregister q =>
    simp only [State.step] at took
    split at took <;> cases took <;> exact { winner with }
  | run q => exact winner.run took

end

end Winner

/-! How often a callback is called. -/

def RegPC.holds : RegPC → Nat
  | .idle | .adding | .late | .lateStart => 1
  | .registered | .empty | .unregistered => 0

def TaskPC.holds : TaskPC → Nat
  | .queued _ | .start => 1
  | .none | .finished => 0

def Stage.holds : Stage → Nat
  | .test | .start => 1
  | .none => 0

def Life.holders (v : Life) : Nat :=
  v.reg.holds + v.listed + v.left + v.stage.holds + v.task.holds

def RegPC.outside : RegPC → Bool
  | .registered | .unregistered => false
  | _ => true

structure Sound (v : Life) : Prop where
  once : v.holders + v.runs ≤ 1
  kept : v.reg ≠ .unregistered → v.holders + v.runs = 1
  taken : v.flag → v.reg = .unregistered ∨ v.stage = .start ∨ v.task = .start ∨ v.runs = 1
  early : v.reg.outside → v.flag = false ∧ v.listed = 0 ∧ v.left = 0 ∧ v.stage = .none ∧
    v.task ≠ .queued true ∧ v.task ≠ .start

theorem Sound.moves (sound : Sound v) (moved : Moves v v') : Sound v' := by
  obtain ⟨once, kept, taken, early⟩ := sound
  cases moved with
  | same => exact ⟨once, kept, taken, early⟩
  | _ =>
    constructor <;>
      grind -ring -linarith [Life.holders, RegPC.holds, TaskPC.holds, Stage.holds, RegPC.outside]

structure Quiet (v : Life) : Prop where
  reg : v.reg = .unregistered
  stage : v.stage ≠ .start
  late : v.task ≠ .queued false
  task : v.task ≠ .start
  none : v.flag ∨ v.holders = 0

theorem Quiet.moves (quiet : Quiet v) (moved : Moves v v') : Quiet v' ∧ v'.runs = v.runs := by
  obtain ⟨unregistered, idle, late, task, none⟩ := quiet
  cases moved with
  | same => exact ⟨⟨unregistered, idle, late, task, none⟩, rfl⟩
  | swap left =>
    refine ⟨⟨unregistered, idle, late, task, ?_⟩, rfl⟩
    simpa only [Life.holders, left, Nat.add_zero] using none
  | dispatch left none_ =>
    -- a callback that is still in the loop has its flag set
    have flag : v.flag := none.resolve_right (by simp [Life.holders, left])
    exact ⟨⟨unregistered, idle, nofun, nofun, .inl flag⟩, rfl⟩
  | test left none_ =>
    have flag : v.flag := none.resolve_right (by simp [Life.holders, left])
    exact ⟨⟨unregistered, nofun, late, task, .inl flag⟩, rfl⟩
  | lost test flag => exact ⟨⟨unregistered, nofun, late, task, .inl flag⟩, rfl⟩
  | won test flag =>
    have flag' : v.flag := none.resolve_right (by simp [Life.holders, test, Stage.holds])
    cases flag.symm.trans flag'
  | call start => exact absurd start idle
  | runLate queued => exact absurd queued late
  | runLost queued flag => exact ⟨⟨unregistered, idle, nofun, nofun, .inl flag⟩, rfl⟩
  | runWon queued flag =>
    have flag' : v.flag := none.resolve_right (by simp [Life.holders, queued, TaskPC.holds])
    cases flag.symm.trans flag'
  | runStart start => exact absurd start task
  | _ reg => cases reg.symm.trans unregistered

theorem winner (run : Reaches labels s) : Winner s :=
  run.invariant .start fun winner _ took => winner.step took

theorem sound (run : Reaches labels s) (r : R) : Sound (life s r) := by
  have both := run.invariant (P := fun s => Winner s ∧ Sound (life s r)) ⟨.start, ?_⟩
    fun holds _ took => ⟨holds.1.step took, holds.2.moves (moves_step holds.1 took r)⟩
  · exact both.2
  · exact ⟨Nat.le_refl _, fun _ => rfl, nofun, fun _ => ⟨rfl, rfl, rfl, rfl, nofun, nofun⟩⟩

theorem Quiet.run (quiet : Quiet (life s r)) (winner : Winner s)
    (run : Run step free s labels t) : t.runs r = s.runs r := by
  have all := run.invariant (P := fun t => Winner t ∧ Quiet (life t r) ∧ t.runs r = s.runs r)
    ⟨winner, quiet, rfl⟩ fun ⟨winner, quiet, same⟩ _ took => by
      have next := quiet.moves (moves_step winner took r)
      exact ⟨winner.step took, next.1, next.2.trans same⟩
  exact all.2.2

/-- A callback that is called whatever `unregister` does: it has won its flag and is not called
yet, or it was posted without its flag. -/
def State.InFlight (s : State A P R) (r : R) : Prop :=
  s.task r = .queued false ∨ s.task r = .start ∨ ∃ left waiters, s.work = .start r left waiters

def State.Pending (s : State A P R) (r : R) : Prop :=
  (∃ p, s.canceler p = .working) ∨ (s.reg r).holds = 1 ∨ (s.task r).holds = 1

/-- Steps of what has begun: calls of `cancel()`, the call that registers `r`, and the function
that was posted for it. -/
def Action.serves (r : R) : Action A P R → Bool
  | .cancel _ _ => true
  | .add q _ => q = r
  | .run q => q = r
  | _ => false

def Calls (r : R) (s : State A P R) : Prop :=
  ∃ more t, exec step s more = some t ∧ (∀ label ∈ more, label.serves r) ∧
    t.runs r = 1

theorem Calls.before (calls : Calls r t) (done : exec step s labels = some t)
    (serves : ∀ label ∈ labels, label.serves r) : Calls r s := by
  obtain ⟨more, u, done', serves', called⟩ := calls
  refine ⟨labels ++ more, u, (exec_append done).trans done', ?_, called⟩
  intro label mem
  exact (List.mem_append.mp mem).elim (serves label) (serves' label)

theorem Calls.step (calls : Calls r t) (took : s.step label = some t)
    (serves : label.serves r) : Calls r s := by
  have done : exec State.step s [label] = some t := by
    rw [exec, took]
    rfl
  refine calls.before done fun other mem => ?_
  rwa [List.mem_singleton.mp mem]

theorem Calls.call (run : Reaches labels s) (took : s.step label = some t)
    (serves : label.serves r) (called : t.runs r = s.runs r + 1) : Calls r s := by
  have once := (sound (.next run trivial took) r).once
  refine Calls.step ⟨[], t, rfl, nofun, ?_⟩ took serves
  have runs : (life t r).runs = s.runs r + 1 := called
  omega

omit [DecidableEq A] [DecidableEq P] in
theorem started (t : State A P R) (r : R) : (t.start r).runs r = t.runs r + 1 :=
  update_self ..

theorem start_calls (run : Reaches labels s) (task : s.task r = .start) : Calls r s := by
  have took : s.step (.run r) = some ((s.start r).setTask r .finished) := by
    simp only [State.step, State.run, task]
  exact .call run took (decide_eq_true rfl) (started s r)

theorem task_calls (run : Reaches labels s) (held : (s.task r).holds = 1)
    (reg : s.reg r ≠ .unregistered) : Calls r s := by
  cases task : s.task r with
  | queued guarded =>
    cases guarded with
    | false =>
      have took : s.step (.run r) = some ((s.start r).setTask r .finished) := by
        simp only [State.step, State.run, task]
      exact .call run took (decide_eq_true rfl) (started s r)
    | true =>
      obtain ⟨once, -, taken, -⟩ := sound run r
      -- the flag can only be set by the one who calls it, or by `unregister`
      have flag : s.flag r = false := by
        simp only [Life.holders, life, task, TaskPC.holds] at once taken
        by_contra set
        rcases taken (Bool.not_eq_false _ ▸ set) with gone | stage | start | runs
        · exact reg gone
        · rw [stage, Stage.holds] at once
          omega
        · cases start
        · omega
      have took : s.step (.run r) = some ((s.testAndSet r).setTask r .start) := by
        simp only [State.step, State.run, task, flag, Bool.false_eq_true, if_false]
      refine Calls.step ?_ took (decide_eq_true rfl)
      exact start_calls (run.next trivial took) (update_self ..)
  | start => exact start_calls run task
  | none | finished => simp [task, TaskPC.holds] at held

theorem late_calls (run : Reaches labels s) (late : s.reg r = .late ∨ s.reg r = .lateStart) :
    Calls r s := by
  have starts : ∀ {labels} {s : State A P R}, Reaches labels s → s.reg r = .lateStart →
      Calls r s := by
    intro labels s run late
    have took : s.step (.add r true) = some ((s.start r).setReg r .empty) := by
      simp only [step, add, late]
    exact .call run took (decide_eq_true rfl) (started s r)
  rcases late with late | late
  · have took : s.step (.add r true) = some (s.setReg r .lateStart) := by
      simp only [step, add, late, Bool.true_eq_false, and_false, if_false]
    refine Calls.step ?_ took (decide_eq_true rfl)
    exact starts (run.next trivial took) (update_self ..)
  · exact starts run late

theorem add_calls (run : Reaches labels s) (closed : s.waiters = .closed)
    (adding : s.reg r = .adding) : Calls r s := by
  have took : s.step (.add r true) = some (s.setReg r .late) := by
    simp only [step, add, adding, closed]
  refine Calls.step ?_ took (decide_eq_true rfl)
  exact late_calls (run.next trivial took) (.inl (update_self ..))

theorem cancel_reg (took : s.cancel p own = some t) : t.reg = s.reg := by
  unfold cancel at took
  split at took
  · split at took <;> cases took <;> rfl
  · unfold proceed at took
    split at took <;> try split at took
    all_goals
      cases took
      rfl
  all_goals cases took

omit [DecidableEq A] [DecidableEq P] in
theorem run_reg (took : s.run q = some t) : t.reg = s.reg := by
  unfold run at took
  split at took <;> try split at took
  all_goals
    cases took
    try rfl

/-- When the loop over the callbacks is past the callback, it was called or somebody else has
it. -/
theorem called_or_held (run : Reaches labels s) (closed : s.waiters = .closed)
    (work : (∃ node, s.work = .resume node) ∨
      ∃ left waiters, s.work = .callbacks left waiters ∧ r ∉ left)
    (reg : s.reg r ≠ .unregistered) :
    s.runs r = 1 ∨ (s.reg r).holds = 1 ∨ (s.task r).holds = 1 := by
  have kept := (sound run r).kept reg
  have empty : s.callbacks = [] := by
    apply ((winner run).swapped closed).resolve_right
    rintro ⟨waiters, swap⟩
    rcases work with ⟨_, work⟩ | ⟨_, _, work, _⟩ <;> cases work.symm.trans swap
  have past : s.work.left.count r = 0 ∧ s.work.stage r = .none := by
    rcases work with ⟨_, work⟩ | ⟨left, _, work, past⟩ <;> rw [work]
    · exact ⟨rfl, rfl⟩
    · exact ⟨List.count_eq_zero.mpr past, rfl⟩
  simp only [Life.holders, life, empty, past, Stage.holds, List.count_nil] at kept
  omega

/-- The call of `cancel()` that closed the list calls the callback, or posts it. -/
theorem work_calls (run : Reaches labels s) (working : s.canceler p = .working)
    (reg : s.reg r ≠ .unregistered) (returned : (s.reg r).holds = 0) : Calls r s := by
  obtain ⟨n, t, done, has⟩ := work_ends working
  have serves : ∀ label : Action A P R, label ∈ List.replicate n (.cancel p true) →
      label.serves r := by
    intro label mem
    rw [List.eq_of_mem_replicate mem]
    rfl
  have cancels := (Run.of_exec done).restrict
    (fun label mem => List.eq_of_mem_replicate mem)
  have same : t.reg = s.reg := cancels.invariant (P := fun t => t.reg = s.reg) rfl
    fun same label took => by
      rw [label] at took
      exact (cancel_reg took).trans same
  have run' := run.trans (.of_exec done)
  rw [← same] at reg returned
  have closed := (winner run').closed_of_working has.working
  rcases called_or_held run' closed (.inl ⟨_, has.work⟩) reg with called | held | held
  · exact ⟨_, t, done, serves, called⟩
  · omega
  · exact (task_calls run' held reg).before done serves

theorem closed_of_returned (run : Reaches labels s) (returned : s.canceler p = .returned) :
    s.waiters = .closed := by
  by_contra open_
  rcases ((winner run).opened open_).2 p with idle | idle <;> cases returned.symm.trans idle

def State.Spared (s : State A P R) (r : R) : Prop :=
  ∀ p, s.canceler p = .threw → r ∉ s.work.left

/-- After a cancellation a callback was called, or somebody is still to call it. -/
theorem called_or_pending (run : Reaches labels s) (closed : s.waiters = .closed)
    (spared : s.Spared r) (reg : s.reg r ≠ .unregistered) : s.runs r = 1 ∨ s.Pending r := by
  rcases (winner run).closed closed with idle | working | ⟨p, left, waiters, threw, work⟩
  · exact (called_or_held run closed (.inl ⟨_, idle⟩) reg).imp_right .inr
  · exact .inr (.inl working)
  · have past : r ∉ left := by simpa [work, Work.left] using spared p threw
    exact (called_or_held run closed (.inr ⟨_, _, work, past⟩) reg).imp_right .inr

/-- No callback of the loop throws while `r` is still behind it in the loop. -/
def SparesCallback (r : R) (s : State A P R) (label : Action A P R) : Prop :=
  ∀ p, label = .throws p → r ∉ s.work.left

theorem spared_iff (run : Reaches labels s) (r : R) :
    s.Spared r ↔ Run step (SparesCallback r) {} labels s := by
  refine at_rest_iff (Q := fun s => r ∉ s.work.left) run ?_ ?_
  · intro labels s t label p run threw took
    rw [(frozen run threw took).2.1]
  · intro s t p took
    obtain ⟨-, ⟨q, left, waiters, before, after⟩, -⟩ := threw_throws took
    rw [before, after]
    rfl

/-- A callback that an exception has left behind in the loop is not called any more. -/
theorem never_called (run : Reaches labels s) (threw : s.canceler p = .threw)
    (behind : r ∈ s.work.left) (later : Run step free s more t) : t.runs r = 0 := by
  have still := later.invariant (P := fun t => (∃ labels, Reaches labels t) ∧
    t.canceler p = .threw ∧ t.work = s.work) ⟨⟨labels, run⟩, threw, rfl⟩ ?_
  · obtain ⟨⟨labels, run⟩, -, same⟩ := still
    have once := (sound run r).once
    have held := List.count_pos_iff.mpr behind
    simp only [Life.holders, life, same] at once
    omega
  · rintro u v label ⟨⟨labels, run⟩, threw, same⟩ - took
    obtain ⟨threw', same', -⟩ := frozen run threw took
    exact ⟨⟨_, run.next trivial took⟩, threw', same'.trans same⟩

theorem calls (run : Reaches labels s) (closed : s.waiters = .closed) (spared : s.Spared r)
    (begun : s.reg r ≠ .idle) (reg : s.reg r ≠ .unregistered) : Calls r s := by
  have returned : (s.reg r).holds = 0 → Calls r s := by
    intro returned
    rcases called_or_pending run closed spared reg with called | ⟨p, working⟩ | held | held
    · exact ⟨[], s, rfl, nofun, called⟩
    · exact work_calls run working reg returned
    · omega
    · exact task_calls run held reg
  cases here : s.reg r with
  | idle => exact absurd here begun
  | adding => exact add_calls run closed here
  | late => exact late_calls run (.inl here)
  | lateStart => exact late_calls run (.inr here)
  | registered | empty => exact returned (by rw [here]; rfl)
  | unregistered => exact absurd here reg

/-- Whatever is in flight when the registration goes away is called after it. -/
theorem flies (run : Reaches labels s) (flight : s.InFlight r) :
    ∃ label t, s.step label = some t ∧ t.runs r = s.runs r + 1 := by
  rcases flight with queued | start | ⟨left, waiters, work⟩
  · refine ⟨.run r, (s.start r).setTask r .finished, ?_, started s r⟩
    simp only [State.step, State.run, queued]
  · refine ⟨.run r, (s.start r).setTask r .finished, ?_, started s r⟩
    simp only [State.step, State.run, start]
  have closed : s.waiters = .closed := by
    by_contra open_
    cases work.symm.trans ((winner run).opened open_).1
  rcases (winner run).closed closed with idle | ⟨p, working⟩ | ⟨_, _, _, _, thrown⟩
  · cases work.symm.trans idle
  · refine ⟨.cancel p true, { s with work := .callbacks left waiters }.start r, ?_, started ..⟩
    simp only [State.step, State.cancel, working, State.proceed, work]
  · cases work.symm.trans thrown

theorem quiet_of_unregister (run : Reaches labels s)
    (took : s.step (.unregister r) = some t) (landed : ¬ s.InFlight r) : Quiet (life t r) := by
  obtain ⟨-, -, -, early⟩ := sound run r
  simp only [InFlight, not_or] at landed
  have stage : s.work.stage r ≠ .start := by
    intro start
    apply landed.2.2
    cases work : s.work <;> simp only [work, Work.stage, reduceCtorEq] at start
    · split at start <;> cases start
    split at start
    · rename_i same
      exact ⟨_, _, by rw [same]⟩
    · cases start
  simp only [step] at took
  split at took <;> cases took
  · refine ⟨update_self .., stage, landed.1, landed.2.1, .inl ?_⟩
    exact update_self ..
  rename_i empty
  obtain ⟨-, listed, left, none, unguarded, -⟩ := early (by simp [life, empty, RegPC.outside])
  refine ⟨update_self .., stage, landed.1, landed.2.1, .inr ?_⟩
  rw [life_setReg]
  simp only [Life.holders, listed, left, none, RegPC.holds, Stage.holds]
  cases task : s.task r with
  | queued guarded => cases guarded <;> simp_all [life]
  | start => exact absurd task landed.2.1
  | _ => simp [life, task, TaskPC.holds]

/-- In every run each callback is called at most once. After any call of `cancel()` has returned,
one that is registered and not unregistered was called, or somebody has it and calls it, exactly if
no callback in front of it in the loop has thrown. One that is unregistered is not called any more,
exactly if it is not in flight at that point. -/
theorem callback_exactly_once (run : Reaches labels s) (r : R) : s.runs r ≤ 1 ∧
    ((∃ p, s.canceler p = .returned) → s.reg r ≠ .idle → s.reg r ≠ .unregistered →
      ((s.runs r = 1 ∨ s.Pending r) ∧
        (∃ more t, exec step s more = some t ∧ (∀ label ∈ more, label.serves r) ∧
          t.runs r = 1) ↔
        Run step (SparesCallback r) {} labels s)) ∧
    ∀ t, s.step (.unregister r) = some t →
      ((∀ more u, Run step free t more u → u.runs r = t.runs r) ↔
        ¬ s.InFlight r) := by
  refine ⟨?_, ?_, ?_⟩
  · have once := (sound run r).once
    have runs : (life s r).runs = s.runs r := rfl
    omega
  · rintro ⟨p, returned⟩ begun reg
    have closed := closed_of_returned run returned
    rw [← spared_iff run r]
    constructor
    · rintro ⟨-, more, t, done, -, called⟩ p threw behind
      have none := never_called run threw behind (.of_exec done)
      omega
    · intro spared
      exact ⟨called_or_pending run closed spared reg, calls run closed spared begun reg⟩
  intro t stepped
  have run' : Reaches _ t := run.next trivial stepped
  constructor
  · intro silent flight
    have flight' : t.InFlight r := by
      simp only [step] at stepped
      split at stepped <;> cases stepped <;> exact flight
    obtain ⟨label, u, later, called⟩ := flies run' flight'
    have same := silent _ u (.next .refl trivial later)
    omega
  · intro landed more u later
    exact (quiet_of_unregister run stepped landed).run (winner run') later

/-- The state is cancelled, and `onCancel` is called on a thread whose scheduler is made but not
running yet, so the callback is posted. -/
def postedLate : List (Action Nat Nat Nat) :=
  [.call 0, .cancel 0 true, .cancel 0 true, .cancel 0 true, .cancel 0 true, .onCancel 0 true,
    .add 0 false, .add 0 false]

/-- A registration in the list, with the call of `cancel()` that posted the callback returned. -/
def postedListed : List (Action Nat Nat Nat) :=
  [.onCancel 0 true, .add 0 true, .call 0, .cancel 0 true, .cancel 0 true, .cancel 0 false,
    .cancel 0 true, .cancel 0 true]

theorem callback_exactly_once_posted :
    ∃ s, exec step {} postedListed = some s ∧ s.reg 0 = .registered ∧
      s.runs 0 = 0 ∧
      (∃ more t, exec step s more = some t ∧
        (∀ label ∈ more, label.serves 0) ∧ t.runs 0 = 1) ∧
      ∃ t, s.step (.unregister 0) = some t ∧
        ∀ more u, Run step free t more u → u.runs 0 = t.runs 0 := by
  have ends : ∃ s, exec step {} postedListed = some s ∧ s.reg 0 = .registered ∧
      s.runs 0 = 0 ∧ s.canceler 0 = .returned ∧ s.task 0 = .queued true ∧
      s.work = .resume none := exec_any (by decide)
  obtain ⟨s, done, registered, none, returned, queued, work⟩ := ends
  have all := callback_exactly_once (.of_exec done) (0 : Nat)
  refine ⟨s, done, registered, none, ?_, (s.testAndSet 0).setReg 0 .unregistered, ?_, ?_⟩
  · have quiet : ∀ label ∈ postedListed, ∀ p, label ≠ .throws p := by simp [postedListed]
    have spared : Run _ (SparesCallback 0) _ _ s := ((Run.of_exec done).restrict quiet).relax
      fun quiet p throws => absurd throws (quiet p)
    exact ((all.2.1 ⟨0, returned⟩ (by rw [registered]; exact nofun)
      (by rw [registered]; exact nofun)).mpr spared).2
  · simp only [step, registered]
  apply (all.2.2 _ (by simp only [step, registered])).mpr
  rintro (late | start | ⟨left, waiters, start⟩)
  · cases queued.symm.trans late
  · cases queued.symm.trans start
  · cases work.symm.trans start

theorem late_callback_after_unregister : ∃ s t u, exec step {} postedLate = some s ∧
      s.step (.unregister 0) = some t ∧ t.step (.run 0) = some u ∧
      t.reg 0 = .unregistered ∧ t.runs 0 = 0 ∧ u.runs 0 = 1 := by
  have ends : ∃ s, exec step {} postedLate = some s ∧ s.reg 0 = .empty ∧
      s.runs 0 = 0 ∧ s.task 0 = .queued false := exec_any (by decide)
  obtain ⟨s, done, empty, none, queued⟩ := ends
  let t := s.setReg 0 .unregistered
  have gone : t.reg 0 = .unregistered := by simp [t, setReg]
  refine ⟨s, t, (t.start 0).setTask 0 .finished, done, ?_, ?_, gone, none, ?_⟩
  · simp only [step, empty]
    rfl
  · simp only [step, run, show t.task 0 = _ from queued]
  · exact (started t 0).trans (congrArg (· + 1) none)

end Nitrocoro.CancelState
