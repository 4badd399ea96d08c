import Nitrocoro.Io.Perform

/-! The two directions of a channel move independently of each other but for `errored`. What one
step does to a direction is said once, as `Moves`; that no edge is lost and when a cancel is heard
then are invariants of a single direction. -/
namespace Nitrocoro.Io.Perform
open Transition
open Transition (exec exec_any of_ite)
open Channel (waiter wakeReader wakeWriter flag handleIoEvents cancel enabled canceled cancelRead
  cancelWrite awaitReady)
variable {s t : Perform} {d e : Dir}

structure View where
  op : OpPC
  flag : Bool
  errored : Bool
  /-- The operation is in the slot of its waiter. -/
  waiting : Bool
  canceled : Bool
  enabled : Bool
  ready : Bool
  edge : Bool
  /-- How often the handle of the operation is in the ready queue. -/
  queued : Nat
  started : Nat
  suspensions : Nat
  resumptions : Nat

def view (s : Perform) (d : Dir) : View where
  op := s.op d
  flag := s.channel.flag d
  errored := s.channel.errored
  waiting := (s.channel.waiter d).isSome
  canceled := s.channel.canceled d
  enabled := s.channel.enabled d
  ready := s.ready d
  edge := s.edge d
  queued := s.queue.count d
  started := s.started d
  suspensions := s.suspensions d
  resumptions := s.resumptions d

namespace View

def awaited (v : View) : View :=
  if v.canceled then { v with canceled := false, op := .returned .canceled }
  else { v with op := .attempt }

def enable (v : View) : View :=
  if v.enabled then v else { v with enabled := true, edge := v.ready }

def deliver (v : View) (error bit : Bool) : View :=
  { v with
    flag := v.flag || bit
    errored := v.errored || error
    waiting := v.waiting && !(error || bit)
    queued := v.queued + if v.waiting && (error || bit) then 1 else 0
    edge := v.edge && !bit }

def cancel (v : View) : View :=
  if v.waiting then { v with canceled := true, waiting := false, queued := v.queued + 1 } else v

end View

/-- A step as one direction sees it; its label matters for the calls from outside. -/
inductive Moves (d : Dir) : Action → View → View → Prop where
  | stays : Moves d a v v
  | enable : v.op.running = false → d = .read → Moves d a v v.enable
  | kernel (ready : Bool) : Moves d a v { v with ready, edge := v.edge || ready && !v.ready && v.enabled }
  | drop : v.ready = false → Moves d a v { v with edge := false }
  | deliver (error bit : Bool) : v.op.running = false → Moves d a v (v.deliver error bit)
  | cancel : v.op.running = false → Moves d (.cancel d) v v.cancel
  | call (wait : Bool) : v.op.ended → (d = .read → v.enabled) →
      Moves d (.call d wait) v { v with
        started := v.started + 1, op := .switching (if wait then some d else none) }
  | begin : v.op = .switching hint → Moves d a v { v with op := .head hint }
  | resume : v.op = .suspended d → 0 < v.queued →
      Moves d a v { v with queued := v.queued - 1, resumptions := v.resumptions + 1 }.awaited
  | attempt : v.op = .attempt → (answer = .again → v.ready = false) →
      Moves d a v { v with op := .answered answer }
  | pass : v.op = .head none ∨ v.op = .head (some d) ∧ v.flag → Moves d a v { v with op := .attempt }
  | error : v.op = .head (some d) → v.flag = false → v.errored → Moves d a v v.awaited
  | suspend : v.op = .head (some d) → v.flag = false → v.errored = false →
      Moves d a v { v with op := .suspended d, waiting := true, suspensions := v.suspensions + 1 }
  | readAgain : d = .read → v.op = .answered .again →
      Moves d a v { v with flag := false, op := .head (some d) }
  | writeAgain : d = .write → v.op = .answered .again →
      Moves d a v { v.enable with flag := false, op := .head (some d) }
  | wrote : d = .write → v.op = .answered .done →
      Moves d a v { v with enabled := false, edge := false, op := .returned .success }
  | ends (result : IoResult) : v.op = .answered answer → answer ≠ .again →
      Moves d a v { v with op := .returned result }
  | retry : v.op = .answered answer → answer ≠ .again → Moves d a v { v with op := .head none }

def waits : OpPC → Option Dir
  | .switching hint => hint
  | .head pendingWait => pendingWait
  | .suspended on => some on
  | _ => none

structure Own (s : Perform) : Prop where
  op : ∀ d on, waits (s.op d) = some on → on = d
  waiter : ∀ d e, s.channel.waiter d = some e → e = d

@[simp] theorem goto_op : (s.goto d pc).op d = pc := Function.update_self ..

theorem goto_op_other (other : e ≠ d) : (s.goto d pc).op e = s.op e :=
  Function.update_of_ne other ..

theorem view_goto : view (s.goto d pc) d = { view s d with op := pc } := by
  simp [view, goto]

theorem view_goto_other (other : e ≠ d) : view (s.goto d pc) e = view s e := by
  simp [view, goto, other]

theorem handleIoEvents_errored (ch : Channel H) (ev : Events) :
    (ch.handleIoEvents ev).1.errored = (ch.errored || ev.error) := by
  unfold handleIoEvents
  cases ev.error <;> cases ev.input <;> cases ev.output <;>
    simp [wakeReader, wakeWriter]

theorem handleIoEvents_flag (ch : Channel H) (ev : Events) (d : Dir) :
    (ch.handleIoEvents ev).1.flag d = (ch.flag d || ev.bit d) := by
  unfold handleIoEvents
  cases d <;> cases error : ev.error <;> cases input : ev.input <;> cases output : ev.output <;>
    simp [wakeReader, wakeWriter, flag, Events.bit, input, output]

theorem handleIoEvents_waiter (ch : Channel H) (ev : Events) (d : Dir) :
    (ch.handleIoEvents ev).1.waiter d = if ev.error || ev.bit d then none else ch.waiter d := by
  unfold handleIoEvents
  cases d <;> cases error : ev.error <;> cases input : ev.input <;> cases output : ev.output <;>
    simp [wakeReader, wakeWriter, waiter, Events.bit, input, output]

theorem handleIoEvents_enabled (ch : Channel H) (ev : Events) (d : Dir) :
    (ch.handleIoEvents ev).1.enabled d = ch.enabled d := by
  unfold handleIoEvents
  cases d <;> cases ev.error <;> cases ev.input <;> cases ev.output <;> rfl

theorem handleIoEvents_canceled (ch : Channel H) (ev : Events) (d : Dir) :
    (ch.handleIoEvents ev).1.canceled d = ch.canceled d := by
  unfold handleIoEvents
  cases d <;> cases ev.error <;> cases ev.input <;> cases ev.output <;> rfl

theorem count_waiter (ch : Channel Dir) (own : ∀ d e, ch.waiter d = some e → e = d) (d e : Dir) :
    (ch.waiter d).toList.count e = if d = e ∧ (ch.waiter d).isSome then 1 else 0 := by
  cases waiter : ch.waiter d with
  | none => simp
  | some h =>
    cases own d h waiter
    by_cases same : d = e <;> simp [same]

theorem count_handleIoEvents (ch : Channel Dir) (own : ∀ d e, ch.waiter d = some e → e = d)
    (ev : Events) (d : Dir) : (ch.handleIoEvents ev).2.count d =
      if (ch.waiter d).isSome && (ev.error || ev.bit d) then 1 else 0 := by
  have reader := count_waiter ch own .read d
  have writer := count_waiter ch own .write d
  unfold handleIoEvents
  cases d <;> cases error : ev.error <;> cases input : ev.input <;> cases output : ev.output <;>
    simp_all [wakeReader, wakeWriter, waiter, Events.bit]

section Channel
variable (ch : Channel Dir) (h : Dir)

@[simp] theorem lower_waiter : (ch.lower d).waiter e = ch.waiter e := by
  cases d <;> cases e <;> rfl

@[simp] theorem clearCanceled_waiter : (ch.clearCanceled d).waiter e = ch.waiter e := by
  cases d <;> cases e <;> rfl

@[simp] theorem enable_waiter : (ch.enable d).waiter e = ch.waiter e := by
  cases d <;> cases e <;> rfl

theorem wait_waiter : (ch.wait h d).waiter e = if e = d then some h else ch.waiter e := by
  cases d <;> cases e <;> rfl

theorem cancel_waiter : (ch.cancel d).1.waiter e = if e = d then none else ch.waiter e := by
  cases d <;> cases e <;> simp only [cancel, cancelRead, cancelWrite] <;>
    split <;> simp_all [waiter, wakeReader, wakeWriter]

end Channel

namespace Own

theorem goto (own : Own s) (fits : ∀ on, waits pc = some on → on = d) : Own (s.goto d pc) where
  op e on waiting := by
    by_cases same : e = d
    · subst same
      rw [goto_op] at waiting
      exact fits on waiting
    · rw [goto_op_other same] at waiting
      exact own.op e on waiting
  waiter := own.waiter

theorem channel (own : Own s) (waiter : ∀ d e, ch.waiter d = some e → e = d) :
    Own { s with channel := ch } := ⟨own.op, waiter⟩

theorem enable (own : Own s) : Own (s.enable d) := by
  unfold Perform.enable
  split
  · exact own
  · exact ⟨own.op, fun d e waiting => own.waiter d e (by simpa using waiting)⟩

theorem awaited (own : Own s) : Own (s.awaited d on) := by
  unfold Perform.awaited
  split
  · refine Own.goto (own.channel fun e h waiting => ?_) nofun
    exact own.waiter e h (by simpa using waiting)
  · exact own.goto nofun

theorem loopHead (own : Own s) (fits : ∀ on, wait = some on → on = d) :
    Own (s.loopHead d wait) := by
  unfold Perform.loopHead
  split
  · exact own.goto nofun
  rename_i on
  split
  · exact own.goto nofun
  split
  · exact own.awaited
  cases fits on rfl
  refine Own.goto ⟨own.op, ?_⟩ fun on same => (Option.some.inj same).symm
  intro e h waiting
  rw [wait_waiter] at waiting
  split at waiting
  · cases waiting
    exact Eq.symm ‹_›
  · exact own.waiter e h waiting

theorem lower (own : Own s) : Own { s with channel := s.channel.lower d } :=
  own.channel fun e h waiting => own.waiter e h (by simpa using waiting)

theorem answered (own : Own s) : Own ((s.adapter d answer).1.switch d (s.adapter d answer).2) := by
  have lowers : ∀ {s : Perform}, Own s →
      Own ({ s with channel := s.channel.lower d }.goto d (.head (some d))) := fun own =>
    own.lower.goto fun on same => (Option.some.inj same).symm
  cases d with
  | read => cases answer <;> first | exact own.goto nofun | exact lowers own
  | write =>
    cases answer with
    | done => exact Own.goto { own with } nofun
    | again => exact lowers own.enable
    | _ => exact own.goto nofun

theorem frees {full : Dir → Prop} [DecidablePred full] (own : Own s)
    (slots : ∀ e, ch.waiter e = if full e then none else s.channel.waiter e) :
    Own { s with channel := ch, queue := q, edge := f } where
  op := own.op
  waiter e h waiting := by
    rw [slots] at waiting
    split at waiting
    · cases waiting
    · exact own.waiter e h waiting

end Own

section Views

theorem view_enable : view (s.enable d) d = (view s d).enable := by
  unfold enable View.enable
  split
  · rename_i enabled
    rw [if_pos (show (view s d).enabled = true from enabled)]
  · rename_i disabled
    rw [if_neg (show ¬ (view s d).enabled = true from disabled)]
    cases d <;> simp [view, Channel.enable, enabled, flag, waiter, canceled]

theorem view_enable_other (other : e ≠ d) : view (s.enable d) e = view s e := by
  unfold enable
  split
  · rfl
  · cases d <;> cases e <;>
      first | exact absurd rfl other | simp [view, Channel.enable, enabled, flag, waiter, canceled]

theorem view_awaited : view (s.awaited d d) d = (view s d).awaited := by
  unfold awaited View.awaited
  split
  · rename_i canceled
    rw [if_pos (show (view s d).canceled = true from canceled)]
    cases d <;> rfl
  · rename_i going
    rw [if_neg (show ¬ (view s d).canceled = true from going), view_goto]

theorem view_awaited_other (other : e ≠ d) : view (s.awaited d d) e = view s e := by
  unfold awaited
  split <;> rw [view_goto_other other]
  cases d <;> cases e <;> first | exact absurd rfl other | rfl

theorem moves_loopHead (own : Own s) (at_ : s.op d = .head wait) :
    Moves d a (view s d) (view (s.loopHead d wait) d) := by
  have here : (view s d).op = .head wait := at_
  cases wait with
  | none =>
    rw [loopHead, view_goto]
    exact .pass (.inl here)
  | some on =>
    have same : on = d := own.op d on (by rw [at_]; rfl)
    subst same
    simp only [loopHead]
    split
    · rename_i flag
      rw [view_goto]
      exact .pass (.inr ⟨here, flag⟩)
    rename_i low
    have lowered : (view s on).flag = false := Bool.eq_false_iff.mpr low
    split
    · rename_i ready
      rw [view_awaited]
      refine .error here lowered ?_
      rw [awaitReady, Bool.or_eq_true] at ready
      exact ready.resolve_left low
    rename_i waiting
    have errored : (view s on).errored = false := by
      simp only [awaitReady, Bool.or_eq_true, not_or] at waiting
      exact Bool.eq_false_iff.mpr waiting.2
    rw [view_goto]
    convert Moves.suspend here lowered errored using 1
    cases on <;> simp [view, Channel.wait, flag, waiter, canceled, enabled]

theorem view_loopHead_other (own : Own s) (at_ : s.op d = .head wait) (other : e ≠ d) :
    view (s.loopHead d wait) e = view s e := by
  cases wait with
  | none => rw [loopHead, view_goto_other other]
  | some on =>
    have same : on = d := own.op d on (by rw [at_]; rfl)
    subst same
    simp only [loopHead]
    split
    · exact view_goto_other other
    split
    · exact view_awaited_other other
    · cases on <;> cases e <;> first | exact absurd rfl other | rfl

theorem view_lower : view { s with channel := s.channel.lower d } d =
    { view s d with flag := false } := by
  cases d <;> rfl

theorem view_lower_other (other : e ≠ d) :
    view { s with channel := s.channel.lower d } e = view s e := by
  cases d <;> cases e <;> first | exact absurd rfl other | rfl

theorem moves_answered (at_ : s.op d = .answered answer) :
    Moves d a (view s d) (view ((s.adapter d answer).1.switch d (s.adapter d answer).2) d) := by
  have here : (view s d).op = .answered answer := at_
  have ends : answer ≠ .again → ∀ result,
      Moves d a (view s d) (view (s.goto d (.returned result)) d) := fun other result =>
    view_goto ▸ .ends result here other
  have retry : answer ≠ .again → Moves d a (view s d) (view (s.goto d (.head none)) d) :=
    fun other => view_goto ▸ .retry here other
  cases d with
  | read =>
    cases answer with
    | again =>
      exact .readAgain rfl here
    | interrupted => exact retry nofun
    | _ => exact ends nofun _
  | write =>
    cases answer with
    | again =>
      simp only [adapter, bufferWriter, switch]
      rw [view_goto, view_lower, view_enable]
      exact .writeAgain rfl here
    | done =>
      simp only [switch]
      exact .wrote rfl here
    | part | interrupted => exact retry nofun
    | _ => exact ends nofun _

theorem view_answered_other (other : e ≠ d) :
    view ((s.adapter d answer).1.switch d (s.adapter d answer).2) e = view s e := by
  cases d with
  | read =>
    cases answer <;> first
      | exact view_goto_other other
      | exact (view_goto_other other).trans (view_lower_other other)
  | write =>
    cases answer with
    | again =>
      exact (view_goto_other other).trans
        ((view_lower_other other).trans (view_enable_other other))
    | done =>
      cases e
      · rfl
      · exact absurd rfl other
    | _ => exact view_goto_other other

end Views

theorem running_of_free (free : s.free) (d : Dir) : (view s d).op.running = false := by
  simp only [Perform.free, Bool.and_eq_true, Bool.not_eq_true'] at free
  cases d
  · exact free.1
  · exact free.2

theorem view_deliver (own : Own s) (ev : Events) (d : Dir) : view { s with
      channel := (s.channel.handleIoEvents ev).1
      queue := s.queue ++ (s.channel.handleIoEvents ev).2
      edge := fun d => s.edge d && !ev.bit d } d = (view s d).deliver ev.error (ev.bit d) := by
  simp only [view, View.deliver, handleIoEvents_flag, handleIoEvents_errored,
    handleIoEvents_waiter, handleIoEvents_enabled, handleIoEvents_canceled, List.count_append,
    count_handleIoEvents _ own.waiter]
  cases ev.error <;> cases ev.bit d <;> simp

theorem view_cancel (own : Own s) (d : Dir) : view { s with
      channel := (s.channel.cancel d).1
      queue := s.queue ++ (s.channel.cancel d).2 } d = (view s d).cancel := by
  have slot := own.waiter d
  cases d <;>
    simp only [cancel, cancelRead, cancelWrite, View.cancel] <;> split
  all_goals
    simp_all [view, waiter, flag, canceled, enabled, wakeReader, wakeWriter]

theorem view_cancel_other (own : Own s) (other : e ≠ d) : view { s with
      channel := (s.channel.cancel d).1
      queue := s.queue ++ (s.channel.cancel d).2 } e = view s e := by
  have slot := own.waiter d
  cases d <;> cases e <;> try exact absurd rfl other
  all_goals
    simp only [cancel, cancelRead, cancelWrite]
    split
    · simp
    · simp_all [view, waiter, flag, canceled, enabled, wakeReader, wakeWriter]

theorem moves_at (self : Moves d a (view s d) (view t d))
    (others : ∀ e, e ≠ d → view t e = view s e) (e : Dir) : Moves e a (view s e) (view t e) := by
  by_cases same : e = d
  · subst same
    exact self
  · rw [others e same]
    exact .stays

theorem moves_step (own : Own s) (took : s.step a = some t) :
    Own t ∧ ∀ e, Moves e a (view s e) (view t e) := by
  cases a with
  | enableReading =>
    simp only [step] at took
    split at took <;> cases took
    refine ⟨own.enable, moves_at ?_ fun e other => view_enable_other other⟩
    rw [view_enable]
    exact .enable (running_of_free ‹_› _) rfl
  | kernel d ready =>
    cases took
    refine ⟨{ own with }, moves_at (d := d) ?_ fun e other => by simp [view, other]⟩
    have moved := Moves.kernel (d := d) (a := .kernel d ready) (v := view s d) ready
    simpa [view] using moved
  | drop d =>
    simp only [step] at took
    split at took <;> cases took
    rename_i low
    refine ⟨{ own with }, moves_at (d := d) ?_ fun e other => by simp [view, other]⟩
    have moved := Moves.drop (d := d) (a := .drop d) (v := view s d) (Bool.eq_false_iff.mpr low)
    simpa [view] using moved
  | deliver ev =>
    simp only [step] at took
    split at took <;> cases took
    refine ⟨own.frees (handleIoEvents_waiter _ ev), ?_⟩
    intro e
    rw [view_deliver own]
    exact .deliver _ _ (running_of_free ‹_› e)
  | cancel d =>
    simp only [step] at took
    split at took <;> cases took
    refine ⟨own.frees fun e => cancel_waiter s.channel,
      moves_at ?_ fun e other => view_cancel_other own other⟩
    rw [view_cancel own]
    exact .cancel (running_of_free ‹_› d)
  | call d wait =>
    obtain ⟨idle, rfl⟩ := of_ite took
    refine ⟨Own.goto { own with } fun on same => ?_, moves_at (d := d) ?_ fun e other => ?_⟩
    · cases wait <;> cases same
      rfl
    · have moved := Moves.call (d := d) (v := view s d) wait idle.1 fun read => by
        subst read
        exact idle.2 rfl
      rw [view_goto]
      simpa [view] using moved
    · rw [view_goto_other other]
      simp [view, other]
  | begin d =>
    simp only [step] at took
    split at took
    · rename_i hint at_
      split at took <;> cases took
      refine ⟨own.goto fun on same => own.op d on (by rw [at_]; exact same),
        moves_at ?_ fun e other => view_goto_other other⟩
      rw [view_goto]
      exact .begin at_
    · cases took
  | resume d =>
    simp only [step, resume] at took
    split at took
    · rename_i guard
      split at took <;> cases took
      rename_i on at_
      cases own.op d on (by rw [at_]; rfl)
      refine ⟨Own.awaited { own with }, moves_at (d := d) ?_ fun e other => ?_⟩
      · have moved := Moves.resume (a := .resume d) (v := view s d) at_
          (List.count_pos_iff.mpr guard.2)
        rw [view_awaited]
        simpa [view] using moved
      · rw [view_awaited_other other]
        simp [view, other]
    · cases took
  | attempt d answer =>
    simp only [step] at took
    split at took
    · rename_i at_
      obtain ⟨possible, rfl⟩ := of_ite took
      refine ⟨own.goto nofun, moves_at ?_ fun e other => view_goto_other other⟩
      rw [view_goto]
      refine .attempt at_ ?_
      rintro rfl
      have low : s.ready d = false := by simpa [Perform.possible] using possible
      exact low
    · cases took
  | go d =>
    simp only [step, go] at took
    split at took
    · rename_i wait at_
      cases took
      exact ⟨own.loopHead fun on same => own.op d on (by rw [at_]; exact same),
        moves_at (moves_loopHead own at_) fun e other => view_loopHead_other own at_ other⟩
    · rename_i answer at_
      cases took
      exact ⟨own.answered, moves_at (moves_answered at_) fun e other => view_answered_other other⟩
    · cases took

theorem own_start : Own {} := ⟨fun _ _ => nofun, fun d _ waiting => by cases d <;> cases waiting⟩

theorem run_view {P : View → Prop} {Q : Action → Prop}
    (run : Run step (fun _ a => Q a) s labels t) (own : Own s)
    (initial : P (view s d)) (moves : ∀ {a v v'}, P v → Q a → Moves d a v v' → P v') :
    P (view t d) := by
  have both := run.invariant (P := fun s => Own s ∧ P (view s d)) ⟨own, initial⟩
    fun holds ok took =>
      ⟨(moves_step holds.1 took).1, moves holds.2 ok ((moves_step holds.1 took).2 d)⟩
  exact both.2

/-- An operation is suspended at most once at a time, in the slot of its waiter or in the ready
queue. While a flag is low and the direction enabled, a ready direction has an edge. -/
structure Lane (d : Dir) (v : View) : Prop where
  slot : v.waiting → v.flag = false ∧ v.errored = false
  count : v.queued + (if v.waiting then 1 else 0) = if v.op = .suspended d then 1 else 0
  woken : 0 < v.queued → v.flag = false → v.errored = false → v.canceled
  tally : v.suspensions = v.resumptions + if v.op = .suspended d then 1 else 0
  edge : v.enabled → v.flag = false ∨ v.op = .answered .again → v.errored = false → v.ready →
    v.edge
  reading : d = .read → v.op.ended = false → v.enabled

namespace Lane
variable {v v' : View}

theorem moves (lane : Lane d v) (moved : Moves d a v v') : Lane d v' := by
  obtain ⟨slot, count, woken, tally, edge, reading⟩ := lane
  cases moved with
  | stays => exact ⟨slot, count, woken, tally, edge, reading⟩
  | _ =>
    constructor <;>
      grind -ring -linarith [View.enable, View.deliver, View.cancel, View.awaited, OpPC.ended,
        OpPC.running]

end Lane

/-- A writer that finds the direction blocked has enabled it and waits for it, and no attempt is
made that could disable it again. -/
structure Watches (v : View) : Prop where
  canceled : v.canceled = false
  enabled : v.flag = false → v.errored = false →
    v.enabled ∧ (v.op = .head (some .write) ∨ v.op = .suspended .write)

theorem Watches.moves (watches : Watches v) (lane : Lane .write v) (calm : a ≠ .cancel .write)
    (moved : Moves .write a v v') : Watches v' := by
  obtain ⟨canceled, enabled⟩ := watches
  have woken := lane.woken
  cases moved <;> constructor <;>
    grind -ring -linarith [View.enable, View.deliver, View.awaited, OpPC.ended]

/-- The same with canceled operations, which leave the direction enabled. -/
def WatchesCanceled (v : View) : Prop :=
  v.flag = false → v.errored = false → v.enabled ∧ (v.op.ended ∨ v.op = .switching (some .write) ∨
    v.op = .head (some .write) ∨ v.op = .suspended .write)

theorem WatchesCanceled.moves (watches : WatchesCanceled v) (lane : Lane .write v)
    (hint : a ≠ .call .write false) (moved : Moves .write a v v') : WatchesCanceled v' := by
  have woken := lane.woken
  unfold WatchesCanceled at watches ⊢
  cases moved <;>
    grind -ring -linarith [View.enable, View.deliver, View.cancel, View.awaited, OpPC.ended]

theorem lane_start : Lane d (view {} d) where
  slot waiting := by cases d <;> cases waiting
  count := by cases d <;> rfl
  woken some_ := by cases d <;> cases some_
  tally := by cases d <;> rfl
  edge enabled := by cases d <;> cases enabled
  reading _ ended := by cases d <;> cases ended

theorem lane (run : Performs labels s) (d : Dir) : Lane d (view s d) :=
  run_view run own_start lane_start fun lane _ moved => lane.moves moved

theorem own (run : Performs labels s) : Own s :=
  run.invariant own_start fun own _ took => (moves_step own took).1

theorem writing (run : Performs labels s) (calm : (∀ label ∈ labels, label ≠ .cancel .write) ∨
      ∀ label ∈ labels, label ≠ .call .write false)
    (low : (view s .write).flag = false) (well : (view s .write).errored = false) :
    (view s .write).enabled := by
  rcases calm with calm | hinted
  · have watches := run_view (P := fun v => Watches v ∧ Lane .write v) (run.restrict calm)
      own_start ⟨⟨rfl, fun low => by cases low⟩, lane_start⟩
      fun holds ok moved => ⟨holds.1.moves holds.2 ok moved, holds.2.moves moved⟩
    exact (watches.1.enabled low well).1
  · have watches := run_view (P := fun v => WatchesCanceled v ∧ Lane .write v)
      (run.restrict hinted) own_start ⟨(fun low => by cases low), lane_start⟩
      fun holds ok moved => ⟨holds.1.moves holds.2 ok moved, holds.2.moves moved⟩
    exact (watches.1 low well).1

/-- An operation that is suspended on a direction which is ready has an event to come, and each
suspension has one resumption. Operations may be canceled if a writer waits for its direction
before its first attempt, as `performWrite` does. -/
theorem no_lost_edge (run : Performs labels s) (calm : (∀ label ∈ labels, label ≠ .cancel .write) ∨
      ∀ label ∈ labels, label ≠ .call .write false) (d on : Dir) :
    (s.op d = .suspended on → d ∉ s.queue → s.ready on → s.edge on) ∧
    (d ∈ s.queue → s.op d = .suspended d ∧ s.channel.waiter d = none) ∧ s.queue.count d ≤ 1 ∧
    s.suspensions d = s.resumptions d + if s.op d = .suspended d then 1 else 0 := by
  have ⟨slot, count, _, tally, edge, reading⟩ := lane run d
  have bound : (view s d).queued ≤ 1 := by grind -ring -linarith
  refine ⟨fun suspended absent ready => ?_, fun mem => ?_, bound, tally⟩
  · cases (own run).op d on (by rw [suspended]; rfl)
    have here : (view s d).op = .suspended d := suspended
    have unqueued : (view s d).queued = 0 := List.count_eq_zero.mpr absent
    have waiting : (view s d).waiting := by grind -ring -linarith
    have enabled : (view s d).enabled := by
      cases d with
      | read => exact reading rfl (by rw [here]; rfl)
      | write => exact writing run calm (slot waiting).1 (slot waiting).2
    exact edge enabled (.inl (slot waiting).1) (slot waiting).2 ready
  · have some_ : 0 < (view s d).queued := List.count_pos_iff.mpr mem
    by_cases here : (view s d).op = .suspended d
    · refine ⟨here, ?_⟩
      have free : (view s d).waiting = false := by grind -ring -linarith
      exact Option.isNone_iff_eq_none.mp (Option.isSome_eq_false_iff.mp free)
    · rw [if_neg here] at count
      omega

/-- A write that would block; the socket becomes writable before EPOLLOUT is enabled. -/
def readyBeforeEnabled : List Action :=
  [.call .write true, .begin .write, .go .write, .attempt .write .again, .kernel .write true,
    .go .write, .go .write]

theorem no_lost_edge_ready : ∃ s, exec step {} readyBeforeEnabled = some s ∧
      s.op .write = .suspended .write ∧ s.ready .write ∧ s.edge .write := by
  have ends : ∃ s, exec step {} readyBeforeEnabled = some s ∧
      s.op .write = .suspended .write ∧ .write ∉ s.queue ∧ s.ready .write :=
    exec_any (by decide)
  obtain ⟨s, done, suspended, absent, ready⟩ := ends
  have edge := (no_lost_edge (.of_exec done) (.inl (by decide)) .write .write).1 suspended absent
    ready
  exact ⟨s, done, suspended, ready, edge⟩

/-- A canceled write leaves the flag low. A write that does not wait for its direction disables it
again, and the next one then waits for an event that does not come. -/
example : ∃ s, exec step {} (readyBeforeEnabled ++
    [.cancel .write, .resume .write,
      .call .write false, .begin .write, .go .write, .attempt .write .done, .go .write,
      .call .write true, .begin .write, .go .write]) = some s ∧
    s.op .write = .suspended .write ∧ s.ready .write ∧ s.edge .write = false :=
  exec_any (by decide)

/-- The operation `n` of the direction has been suspended `k` times, and it will not be again. -/
def Quits (d : Dir) (n k : Nat) (v : View) : Prop :=
  n ≤ v.started ∧ (v.started = n → v.suspensions = k ∧
    (v.errored ∨ v.op.ended ∨ v.op = .suspended d ∧ v.canceled ∧ v.waiting = false))

theorem Quits.moves (quits : Quits d n k v) (moved : Moves d a v v') : Quits d n k v' := by
  unfold Quits at quits ⊢
  cases moved <;>
    grind -ring -linarith [View.enable, View.deliver, View.cancel, View.awaited, OpPC.ended]

theorem switch_again (d : Dir) (s : Perform) :
    let t := (s.adapter d .again).1.switch d (s.adapter d .again).2
    t.op d = .head (some d) ∧ t.channel.flag d = false ∧ t.channel.errored = s.channel.errored ∧
      t.started = s.started ∧ t.suspensions = s.suspensions := by
  cases d with
  | read => exact ⟨goto_op, rfl, rfl, rfl, rfl⟩
  | write =>
    simp only [adapter, bufferWriter, enable]
    split <;> exact ⟨goto_op, rfl, rfl, rfl, rfl⟩

theorem suspends_again (free : s.free) (queued : d ∈ s.queue) (at_ : s.op d = .suspended d)
    (going : s.channel.canceled d = false) (well : s.channel.errored = false) :
    ∃ labels t, exec step s labels = some t ∧ t.started d = s.started d ∧
      t.suspensions d = s.suspensions d + 1 := by
  -- the direction is not ready any more when the operation makes its attempt
  let lost : Perform := { s with
    ready := Function.update s.ready d false
    edge := Function.update s.edge d (s.edge d || false && !s.ready d && s.channel.enabled d) }
  let woken := { lost with
    queue := s.queue.erase d
    resumptions := Function.update s.resumptions d (s.resumptions d + 1) }.goto d .attempt
  let blocked := woken.goto d (.answered .again)
  let looped := (blocked.adapter d .again).1.switch d (blocked.adapter d .again).2
  obtain ⟨op, low, errored, started, suspensions⟩ := switch_again d blocked
  have resumed : lost.step (.resume d) = some woken := by
    have guard : lost.free ∧ d ∈ lost.queue := ⟨free, queued⟩
    have suspended : lost.op d = .suspended d := at_
    simp only [step, if_pos guard, resume, suspended]
    exact congrArg some (if_neg (by rw [going]; exact Bool.false_ne_true))
  have attempted : woken.step (.attempt d .again) = some blocked := by
    have attempt : woken.op d = .attempt := goto_op
    have possible : woken.possible d .again := by simp [Perform.possible, woken, lost, goto]
    simp only [step, attempt, if_pos possible]
    rfl
  have answered : blocked.step (.go d) = some looped := by
    have answer : blocked.op d = .answered .again := goto_op
    simp only [step, go, answer]
    rfl
  have suspended : looped.step (.go d) = some (looped.loopHead d (some d)) := by
    simp only [step, go, looped, op]
  refine ⟨[.kernel d false, .resume d, .attempt d .again, .go d, .go d],
    looped.loopHead d (some d), ?_, ?_⟩
  · rw [exec, show s.step (.kernel d false) = some lost from rfl]
    simp only [Option.bind_some, exec, resumed, attempted, answered, suspended]
  have waits : ¬ looped.channel.awaitReady d = true := by
    simp only [awaitReady, looped, low, errored]
    exact Bool.eq_false_iff.mp well
  simp only [loopHead]
  rw [if_neg (Bool.eq_false_iff.mp low), if_neg waits]
  refine ⟨congrFun started d, (Function.update_self ..).trans ?_⟩
  rw [suspensions]
  rfl

theorem cancel_nobody (ch : Channel H) (none : ch.waiter d = none) : ch.cancel d = (ch, []) := by
  cases d
  · simp only [cancel, cancelRead, show ch.readableWaiter = Option.none from none]
  · simp only [cancel, cancelWrite, show ch.writableWaiter = Option.none from none]

theorem Lane.mem_queue (lane : Lane d (view s d)) (suspended : s.op d = .suspended d)
    (none : s.channel.waiter d = none) : d ∈ s.queue := by
  have count := lane.count
  have waiting : (view s d).waiting = false := by simp [view, none]
  rw [waiting, if_pos (show (view s d).op = .suspended d from suspended)] at count
  have one : s.queue.count d = 1 := count
  exact List.count_pos_iff.mp (one ▸ Nat.one_pos)

theorem quits_of_marked (suspended : s.op d = .suspended d)
    (marked : s.channel.waiter d = some d ∨ s.channel.canceled d ∨ s.channel.errored) :
    Quits d (s.started d) (s.suspensions d) (view s d).cancel := by
  have here : (view s d).op = .suspended d := suspended
  unfold View.cancel
  cases waiting : (view s d).waiting with
  | true => exact ⟨Nat.le_refl _, fun _ => ⟨rfl, .inr (.inr ⟨here, rfl, rfl⟩)⟩⟩
  | false =>
    refine ⟨Nat.le_refl _, fun _ => ⟨rfl, ?_⟩⟩
    rcases marked with slot | canceled | errored
    · simp [view, slot] at waiting
    · exact .inr (.inr ⟨here, canceled, waiting⟩)
    · exact .inl errored

/-- A cancel of an operation that is suspended, or was and is in the ready queue again, keeps it
from being suspended once more just if it finds the operation in the slot of its waiter, or the
operation is marked already by an earlier cancel or by an error. -/
theorem cancel_final_iff (run : Performs labels s) (suspended : s.op d = .suspended on)
    (stepped : s.step (.cancel d) = some t) :
    (∀ more u, Run step Transition.free t more u → u.started d = s.started d →
      u.suspensions d = s.suspensions d) ↔
    s.channel.waiter d = some d ∨ s.channel.canceled d ∨ s.channel.errored := by
  have own := own run
  cases own.op d on (by rw [suspended]; rfl)
  have own' := (moves_step own stepped).1
  have looks := view_cancel own d
  simp only [step] at stepped
  split at stepped
  · rename_i free
    cases stepped
    constructor
    · intro quits
      by_contra unmarked
      simp only [not_or, Bool.not_eq_true] at unmarked
      obtain ⟨slot, going, well⟩ := unmarked
      have none : s.channel.waiter d = none := by
        cases waiter : s.channel.waiter d with
        | none => rfl
        | some e =>
          cases own.waiter d e waiter
          exact absurd waiter slot
      have queued := (lane run d).mem_queue suspended none
      -- nobody is told, and the operation goes on as if there was no cancel
      simp only [cancel_nobody _ none, List.append_nil] at quits
      obtain ⟨more, u, done, started, again⟩ := suspends_again free queued suspended going well
      have still := quits more u (.of_exec done) started
      omega
    · intro marked more u later same
      have quits := quits_of_marked suspended marked
      rw [← looks] at quits
      have last := run_view later own' quits fun quits _ moved =>
        quits.moves moved
      exact (last.2 same).1
  · cases stepped

def blockedWrite : List Action :=
  [.call .write true, .begin .write, .go .write, .attempt .write .again, .go .write, .go .write]

theorem cancel_final_iff_slot :
    ∃ s t, exec step {} blockedWrite = some s ∧ s.channel.waiter .write = some .write ∧
      s.step (.cancel .write) = some t ∧
      ∀ more u, Run step Transition.free t more u →
        u.started .write = s.started .write → u.suspensions .write = s.suspensions .write := by
  have ends : ∃ s, exec step {} blockedWrite = some s ∧
      s.op .write = .suspended .write ∧ s.channel.waiter .write = some .write ∧
      (s.step (.cancel .write)).isSome := exec_any (by decide)
  obtain ⟨s, done, suspended, slot, some_⟩ := ends
  obtain ⟨t, stepped⟩ := Option.isSome_iff_exists.mp some_
  have final := (cancel_final_iff (.of_exec done) suspended stepped).mpr (.inl slot)
  exact ⟨s, t, done, slot, stepped, final⟩

def wokenWrite : List Action := blockedWrite ++ [.kernel .write true, .deliver { output := true }]

/-- The write goes on: a part of its buffer is written, and then it would block again. -/
def writesOn : List Action :=
  [.resume .write, .attempt .write .part, .go .write, .go .write, .kernel .write false,
    .attempt .write .again, .go .write, .go .write]

/-- `cancelWrite` between the event and the resumption is not heard. -/
theorem cancel_write_unheard :
    ∃ s t u, exec step {} wokenWrite = some s ∧ s.op .write = .suspended .write ∧
      .write ∈ s.queue ∧ s.step (.cancel .write) = some t ∧
      exec step t writesOn = some u ∧ u.started .write = s.started .write ∧
      u.op .write = .suspended .write ∧ s.suspensions .write = 1 ∧ u.suspensions .write = 2 := by
  have ends : ∃ s, exec step {} wokenWrite = some s ∧ s.op .write = .suspended .write ∧
      .write ∈ s.queue ∧ s.suspensions .write = 1 ∧
      (exec step s (.cancel .write :: writesOn)).any fun u =>
        u.started .write = s.started .write ∧ u.op .write = .suspended .write ∧
          u.suspensions .write = 2 := exec_any (by decide)
  obtain ⟨s, done, suspended, queued, one, rest⟩ := ends
  obtain ⟨u, more, same⟩ := (Option.any_eq_true _ _).mp rest
  obtain ⟨t, stepped, later⟩ := Option.bind_eq_some_iff.mp more
  obtain ⟨started, again, two⟩ := of_decide_eq_true same
  exact ⟨s, t, u, done, suspended, queued, stepped, later, started, again, one, two⟩

end Nitrocoro.Io.Perform
