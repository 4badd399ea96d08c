import Nitrocoro.Core.FutureAwaiters
import Nitrocoro.Core.CancelToken

/-! The awaiters of `cancelled()` go past the list of waiters of their `CancelState` once, like
those of a future. -/
namespace Nitrocoro.CancelState
open LockFreeList Awaiters Transition
open Function (update update_of_ne update_self update_eq_self)
variable {A P R : Type} [DecidableEq A] [DecidableEq P]
variable {s t : State A P R} {o : OneShot.State A P}

def events (s : State A P R) : Action A P R → List (OneShot.Event A P)
  | .cancel p _ =>
    match s.canceler p with
    | .close => if s.waiters = .closed then [.lost p] else [.won p]
    | .working =>
      match s.work with
      | .resume (some node) => [.woken node]
      | _ => []
    | _ => []
  | .advance a _ => passes s.waiters (s.awaiter a) a
  | _ => []

/-- The waiter that the call which closed the list has to resume next. -/
def Work.node : Work A R → Option A
  | .swap waiters => waiters
  | .callbacks _ waiters => waiters
  | .test _ _ waiters => waiters
  | .start _ _ waiters => waiters
  | .resume node => node

def CancelAlike (work : Work A R) : CancelPC → OneShot.Closer A → Prop
  | .idle, pc => pc = .idle
  | .close, pc => pc = .idle
  | .working, pc => pc = .walk work.node
  | .threw, pc => pc = .walk work.node
  | .returned, pc => pc = .finished ∨ pc = .lost

structure Runs (s : State A P R) (o : OneShot.State A P) : Prop where
  inv : OneShot.Inv o
  awaits : Awaits s.waiters s.next s.awaiter o
  canceler : ∀ p, CancelAlike s.work (s.canceler p) (o.closer p)

def Action.registers : Action A P R → Bool
  | .onCancel .. | .add .. | .unregister _ | .run _ => true
  | _ => false

theorem registers_frame [DecidableEq R] (took : s.step label = some t) (registers : label.registers) :
    t.waiters = s.waiters ∧ t.next = s.next ∧ t.awaiter = s.awaiter ∧ t.canceler = s.canceler ∧
      t.work = s.work := by
  cases label with
  | onCancel | add | unregister | run =>
    simp only [State.step, State.add, State.run] at took
    repeat' split at took
    all_goals cases took
    all_goals exact ⟨rfl, rfl, rfl, rfl, rfl⟩
  | _ => cases registers

omit [DecidableEq P] in
theorem advance_protocol (took : s.advance a spurious = some t) :
    Awaiters.advance s.waiters s.next s.awaiter a spurious = some (t.waiters, t.next, t.awaiter) ∧
      t.canceler = s.canceler ∧ t.work = s.work := by
  have pushSaw : ∀ (s : State A P R) (head : Head A), (s.pushSaw a head).waiters = s.waiters ∧
      (s.pushSaw a head).next = s.next ∧
      (s.pushSaw a head).awaiter = update s.awaiter a (saw head) ∧
      (s.pushSaw a head).canceler = s.canceler ∧ (s.pushSaw a head).work = s.work := by
    intro s head
    cases head <;> exact ⟨rfl, rfl, rfl, rfl, rfl⟩
  unfold State.advance at took
  unfold Awaiters.advance
  cases at_ : s.awaiter a with
  | awaitReady =>
    simp only [at_] at took ⊢
    cases head : s.waiters with
    | closed | list =>
      rw [head] at took
      cases took
      exact ⟨by simp [State.goto, head], rfl, rfl⟩
  | load =>
    simp only [at_] at took ⊢
    obtain ⟨waiters, next, awaiter, rest⟩ := pushSaw s s.waiters
    cases took
    exact ⟨by rw [waiters, next, awaiter], rest⟩
  | attempt cur =>
    simp only [at_] at took ⊢
    split at took
    · rename_i guard
      cases took
      rw [if_pos guard]
      exact ⟨rfl, rfl, rfl⟩
    rename_i guard
    rw [if_neg guard]
    obtain ⟨waiters, next, awaiter, rest⟩ :=
      pushSaw { s with next := update s.next a cur } s.waiters
    cases took
    exact ⟨by rw [waiters, next, awaiter], rest⟩
  | _ => simp [at_] at took

namespace Runs

theorem quietly (runs : Runs s o) (canceler : t.canceler = s.canceler) (work : t.work = s.work)
    (moved : ∃ o', Quietly o o' log ∧ Awaits t.waiters t.next t.awaiter o') :
    ∃ o', o'.history = o.history ++ log ∧ Runs t o' := by
  obtain ⟨o', quiet, awaits⟩ := moved
  obtain ⟨labels, run⟩ := quiet.run
  have inv := run.invariant runs.inv fun inv _ took => inv.step took
  refine ⟨o', quiet.history, inv, awaits, fun p => ?_⟩
  rw [canceler, work, quiet.closer]
  exact runs.canceler p

theorem unseen (runs : Runs s o) (waiters : t.waiters = s.waiters) (next : t.next = s.next)
    (awaiter : t.awaiter = s.awaiter)
    (canceler : ∀ p, CancelAlike t.work (t.canceler p) (o.closer p)) :
    ∃ o', o'.history = o.history ++ [] ∧ Runs t o' := by
  refine ⟨o, (List.append_nil _).symm, runs.inv, ?_, canceler⟩
  rw [waiters, next, awaiter]
  exact runs.awaits

theorem walks (runs : Runs s o) (won : s.canceler p = .working ∨ s.canceler p = .threw) :
    o.closer p = .walk s.work.node := by
  have alike := runs.canceler p
  rcases won with won | won <;> rw [won] at alike <;> exact alike

/-- The call that closed the list is the only one that has work. -/
theorem only (runs : Runs s o) (won : s.canceler p = .working ∨ s.canceler p = .threw)
    (won' : s.canceler q = .working ∨ s.canceler q = .threw) : q = p := by
  apply runs.inv.single
  · rw [runs.walks won']
    rfl
  · rw [runs.walks won]
    rfl

theorem works (runs : Runs s o) (waiters : t.waiters = s.waiters) (next : t.next = s.next)
    (awaiter : t.awaiter = s.awaiter)
    (canceler : t.canceler = s.canceler) (node : t.work.node = s.work.node) :
    ∃ o', o'.history = o.history ++ [] ∧ Runs t o' := by
  refine runs.unseen waiters next awaiter fun q => ?_
  have alike := runs.canceler q
  rw [canceler]
  cases at_ : s.canceler q <;> rw [at_] at alike
  case working | threw =>
    rw [CancelAlike, node]
    exact alike
  all_goals exact alike

theorem canceler_update (runs : Runs s o) (here : CancelAlike work pc at_)
    (others : ∀ q, q ≠ p → s.canceler q = .working ∨ s.canceler q = .threw →
      work.node = s.work.node) (q : P) :
    CancelAlike work (update s.canceler p pc q) (update o.closer p at_ q) := by
  by_cases same : q = p
  · subst same
    simpa using here
  rw [update_of_ne same, update_of_ne same]
  have alike := runs.canceler q
  have others := others q same
  cases at_ : s.canceler q <;> rw [at_] at alike others
  case working | threw =>
    rw [CancelAlike, others (by simp)]
    exact alike
  all_goals exact alike

variable [DecidableEq R]

theorem proceed (runs : Runs s o) (working : s.canceler p = .working)
    (took : s.proceed p own = some t) :
    ∃ o', o'.history = o.history ++ events s (.cancel p own) ∧ Runs t o' := by
  have alike := runs.walks (.inl working)
  unfold State.proceed at took
  unfold events
  simp only [working]
  cases work : s.work with
  | resume node =>
    have walking : o.closer p = .walk node := by rw [alike, work]; rfl
    cases node with
    | none =>
      simp only [work] at took ⊢
      cases took
      have finished := OneShot.State.step_walk_finished walking
      refine ⟨o.setCloser p .finished, (List.append_nil _).symm, runs.inv.step finished, ?_, ?_⟩
      · exact ⟨runs.awaits.head, runs.awaits.next, runs.awaits.alike⟩
      · refine runs.canceler_update ?_ fun _ _ _ => rfl
        exact Or.inl rfl
    | some node =>
      simp only [work] at took ⊢
      cases took
      have woken := OneShot.State.step_walk_woken walking
      have awaits : Awaits s.waiters s.next (update s.awaiter node .scheduled)
          (o.setPusher node .woken) := runs.awaits.update (by rfl)
      refine ⟨_, rfl, runs.inv.step woken, { awaits with }, fun q => ?_⟩
      have here : CancelAlike (.resume (s.next node) : Work A R) (s.canceler p)
          (.walk (o.next node)) := by
        rw [working, runs.awaits.next]
        rfl
      have moved := runs.canceler_update here
        (fun q other won => absurd (runs.only (.inl working) won) other) q
      rwa [update_eq_self] at moved
  | callbacks left waiters =>
    cases left <;> simp only [work] at took ⊢
    · cases took
      exact runs.works rfl rfl rfl rfl (by rw [work]; rfl)
    · split at took <;> cases took <;>
        exact runs.works rfl rfl rfl rfl (by rw [work]; rfl)
  | _ =>
    simp only [work] at took ⊢
    repeat' split at took
    all_goals
      cases took
      exact runs.works rfl rfl rfl rfl (by rw [work]; rfl)

theorem throws (runs : Runs s o) (took : s.throws p = some t) :
    ∃ o', o'.history = o.history ++ [] ∧ Runs t o' := by
  unfold State.throws at took
  split at took
  · rename_i r left waiters working work
    cases took
    refine runs.unseen rfl rfl rfl fun q => ?_
    have same : (Work.callbacks left waiters).node = s.work.node := by rw [work]; rfl
    have here : CancelAlike (.callbacks left waiters) .threw (o.closer p) :=
      (runs.walks (.inl working)).trans (congrArg _ same.symm)
    have moved := runs.canceler_update (p := p) here (fun _ _ _ => same) q
    rwa [update_eq_self] at moved
  · cases took

theorem cancel (runs : Runs s o) (took : s.cancel p own = some t) :
    ∃ o', o'.history = o.history ++ events s (.cancel p own) ∧ Runs t o' := by
  unfold State.cancel at took
  cases at_ : s.canceler p with
  | idle | returned | threw => simp [at_] at took
  | working =>
    simp only [at_] at took
    exact runs.proceed at_ took
  | close =>
    have idle : o.closer p = .idle := by
      have alike := runs.canceler p
      rw [at_] at alike
      exact alike
    have head := runs.awaits.head
    simp only [events, at_] at took ⊢
    cases waiters : s.waiters with
    | closed =>
      simp only [waiters] at took head ⊢
      cases took
      have lost := OneShot.State.step_close_lost idle head
      refine ⟨_, rfl, runs.inv.step lost, ?_, ?_⟩
      · exact ⟨runs.awaits.head, runs.awaits.next, runs.awaits.alike⟩
      · refine runs.canceler_update ?_ fun _ _ _ => rfl
        exact Or.inr rfl
    | list top =>
      simp only [waiters] at took head ⊢
      cases took
      have won := OneShot.State.step_close_won idle head
      refine ⟨_, rfl, runs.inv.step won, ⟨rfl, runs.awaits.next, runs.awaits.alike⟩, ?_⟩
      refine runs.canceler_update ?_ fun q _ won => ?_
      · rfl
      · cases (runs.inv.walking (runs.walks won)).1.symm.trans head

theorem step (runs : Runs s o) (took : s.step label = some t) :
    ∃ o', o'.history = o.history ++ events s label ∧ Runs t o' := by
  cases label with
  | await a =>
    obtain ⟨idle, rfl⟩ := of_ite took
    exact runs.quietly rfl rfl (runs.awaits.begin idle)
  | advance a spurious =>
    obtain ⟨same, canceler, work⟩ := advance_protocol took
    exact runs.quietly canceler work (runs.awaits.advance same)
  | resume a =>
    obtain ⟨scheduled, rfl⟩ := of_ite took
    have alike := runs.awaits.alike a
    rw [scheduled] at alike
    exact runs.quietly rfl rfl ⟨o, .refl, runs.awaits.stay (.inl alike)⟩
  | call p =>
    obtain ⟨idle, rfl⟩ := of_ite took
    refine runs.unseen rfl rfl rfl fun q => ?_
    have moved : CancelAlike s.work (update s.canceler p .close q)
        (update o.closer p (o.closer p) q) := by
      refine runs.canceler_update ?_ (fun _ _ _ => rfl) q
      have alike := runs.canceler p
      rw [idle] at alike
      exact alike
    rwa [update_eq_self] at moved
  | cancel p own => exact runs.cancel took
  | throws p => exact runs.throws took
  | onCancel | add | unregister | run =>
    obtain ⟨waiters, next, awaiter, canceler, work⟩ := registers_frame took rfl
    exact runs.works waiters next awaiter canceler (by rw [work])

end Runs

variable [DecidableEq R]

theorem protocol (run : Reaches labels s) :
    ∃ o, Runs s o ∧ o.history = collect State.step events {} labels := by
  refine run.invariant_collect (P := fun s history => ∃ o, Runs s o ∧ o.history = history)
    ⟨{}, ⟨.start, ⟨rfl, rfl, fun _ => rfl⟩, fun _ => rfl⟩, rfl⟩ ?_
  rintro s t label _ ⟨o, runs, rfl⟩ took
  obtain ⟨o', history, runs'⟩ := runs.step took
  exact ⟨o', runs', history⟩

def CancelPC.decided : CancelPC → Bool
  | .idle => false
  | .close => false
  | .working => true
  | .returned => true
  | .threw => true

omit [DecidableEq A] [DecidableEq P] [DecidableEq R] in
theorem CancelAlike.decided_iff {work : Work A R} (alike : CancelAlike work pc closer) :
    pc.decided ↔ closer ≠ .idle := by
  cases pc with
  | returned => rcases alike with rfl | rfl <;> simp [CancelPC.decided]
  | _ =>
    rw [show closer = _ from alike]
    simp [CancelPC.decided]

theorem resume_ends (chain : LinkedList.Chain s.next node nodes)
    (working : s.canceler p = .working) (at_ : s.work = .resume node) :
    ∃ n t, exec State.step s (List.replicate n (.cancel p true)) = some t ∧
      ∀ a, t.awaiter a = .suspended → s.awaiter a = .suspended ∧ a ∉ nodes := by
  let walks (s : State A P R) (node : Option A) : Prop :=
    s.canceler p = .working ∧ s.work = .resume node
  have wakes : ∀ s a, walks s (some a) → ∃ t, s.step (.cancel p true) = some t ∧
      walks t (s.next a) ∧ t.next = s.next ∧
        t.awaiter = update s.awaiter a .scheduled := by
    rintro s a ⟨working, at_⟩
    refine ⟨{ s with work := .resume (s.next a) }.goto a .scheduled, ?_, ⟨working, rfl⟩, rfl, rfl⟩
    simp only [State.step, State.cancel, working, State.proceed, at_]
  exact Awaiters.walk_ends wakes chain ⟨working, at_⟩

def Leads (p : P) (s : State A P R) (Q : State A P R → Prop) : Prop :=
  ∃ n t, exec State.step s (List.replicate n (.cancel p true)) = some t ∧ Q t

theorem Leads.next {Q : State A P R → Prop} (took : s.step (.cancel p true) = some t)
    (leads : Leads p t Q) : Leads p s Q := by
  obtain ⟨n, u, done, holds⟩ := leads
  refine ⟨n + 1, u, ?_, holds⟩
  rw [List.replicate_succ, exec, took]
  exact done

theorem Leads.trans {Q Q' : State A P R → Prop} (leads : Leads p s Q)
    (then_ : ∀ {t}, Q t → Leads p t Q') : Leads p s Q' := by
  obtain ⟨n, t, done, holds⟩ := leads
  obtain ⟨m, u, done', holds'⟩ := then_ holds
  refine ⟨n + m, u, ?_, holds'⟩
  rw [List.replicate_add, exec_append done]
  exact done'

structure Has (p : P) (s : State A P R) (work : Work A R) (t : State A P R) : Prop where
  working : t.canceler p = .working
  work : t.work = work
  next : t.next = s.next
  awaiter : t.awaiter = s.awaiter

omit [DecidableEq A] [DecidableEq P] [DecidableEq R] in
theorem Has.trans {w w' : Work A R} (first : Has p s w t) (second : Has p t w' u) : Has p s w' u :=
  ⟨second.working, second.work, second.next.trans first.next, second.awaiter.trans first.awaiter⟩

theorem test_ends (working : s.canceler p = .working) (work : s.work = .test r left waiters) :
    Leads p s (Has p s (.callbacks left waiters)) := by
  cases flag : s.flag r with
  | true =>
    refine .next (t := { s with work := .callbacks left waiters }) ?_ ⟨0, _, rfl, ?_⟩
    · simp only [State.step, State.cancel, working, State.proceed, work, flag, if_true]
    · exact ⟨working, rfl, rfl, rfl⟩
  | false =>
    refine .next (t := { s with work := .start r left waiters }.testAndSet r) ?_ ?_
    · simp only [State.step, State.cancel, working, State.proceed, work, flag, Bool.false_eq_true,
        if_false]
    · refine .next (t := ({ s with work := .callbacks left waiters }.testAndSet r).start r) ?_
        ⟨0, _, rfl, working, rfl, rfl, rfl⟩
      simp only [State.step, State.cancel, State.testAndSet, working, State.proceed]

theorem callbacks_end (working : s.canceler p = .working)
    (work : s.work = .callbacks left waiters) : Leads p s (Has p s (.resume waiters)) := by
  induction left generalizing s with
  | nil =>
    refine .next (t := { s with work := .resume waiters }) ?_ ⟨0, _, rfl, ?_⟩
    · simp only [State.step, State.cancel, working, State.proceed, work]
    · exact ⟨working, rfl, rfl, rfl⟩
  | cons r left ih =>
    let tested : State A P R := { s with work := .test r left waiters }
    have took : s.step (.cancel p true) = some tested := by
      simp only [State.step, State.cancel, working, State.proceed, work]
      exact if_neg nofun
    refine .next took ?_
    · refine (test_ends (s := tested) working rfl).trans fun has => ?_
      refine (ih has.working has.work).trans fun {t} has' => ⟨0, t, rfl, ?_⟩
      have both := has.trans has'
      exact { both with }

theorem work_ends (working : s.canceler p = .working) :
    Leads p s (Has p s (.resume s.work.node)) := by
  have callbacks : ∀ {u : State A P R} {left}, Has p s (.callbacks left s.work.node) u →
      Leads p u (Has p s (.resume s.work.node)) := fun {u left} has =>
    (callbacks_end has.working has.work).trans fun {t} has' => ⟨0, t, rfl, has.trans has'⟩
  cases work : s.work with
  | swap waiters =>
    rw [work] at callbacks
    refine .next (t := { s with callbacks := [], work := .callbacks s.callbacks waiters }) ?_
      (callbacks ⟨working, rfl, rfl, rfl⟩)
    simp only [State.step, State.cancel, working, State.proceed, work]
  | callbacks left waiters =>
    rw [work] at callbacks
    exact callbacks ⟨working, work, rfl, rfl⟩
  | test r left waiters =>
    rw [work] at callbacks
    exact (test_ends working work).trans fun has => callbacks has
  | start r left waiters =>
    rw [work] at callbacks
    refine .next (t := { s with work := .callbacks left waiters }.start r) ?_
      (callbacks ⟨working, rfl, rfl, rfl⟩)
    simp only [State.step, State.cancel, working, State.proceed, work]
  | resume node => exact ⟨0, s, rfl, working, work, rfl, rfl⟩

/-- After a callback has thrown, the loops do not go on. -/
theorem frozen (run : Reaches labels s) (threw : s.canceler p = .threw)
    (took : s.step label = some t) : t.canceler p = .threw ∧ t.work = s.work ∧
      ∀ a, t.awaiter a = .suspended ↔ s.awaiter a = .suspended := by
  obtain ⟨o, runs, -⟩ := protocol run
  have closed : s.waiters = .closed := by
    have head := (runs.inv.walking (runs.walks (.inr threw))).1.symm.trans runs.awaits.head
    cases waiters : s.waiters with
    | closed => rfl
    | list top =>
      rw [waiters] at head
      cases head
  have idle : ∀ q, s.canceler q ≠ .working := by
    intro q working
    cases runs.only (.inr threw) (.inl working)
    cases threw.symm.trans working
  have elsewhere : ∀ q pc, s.canceler q ≠ .threw → update s.canceler q pc p = .threw := by
    intro q pc other
    rwa [update_of_ne]
    rintro rfl
    exact other threw
  have goes : ∀ a pc, s.awaiter a ≠ .suspended → pc ≠ .suspended → ∀ b,
      update s.awaiter a pc b = .suspended ↔ s.awaiter b = .suspended := by
    intro a pc before after b
    by_cases same : b = a
    · subst same
      rw [update_self]
      exact iff_of_false after before
    · rw [update_of_ne same]
  cases label with
  | await a =>
    obtain ⟨idle, rfl⟩ := of_ite took
    exact ⟨threw, rfl, goes a _ (by simp [idle]) (by simp)⟩
  | advance a spurious =>
    obtain ⟨same, canceler, work⟩ := advance_protocol took
    refine ⟨canceler ▸ threw, work, ?_⟩
    rw [closed, Awaiters.advance] at same
    split at same
    all_goals simp only [saw, reduceCtorEq, false_and, if_false, Option.some.injEq,
      Prod.mk.injEq] at same
    all_goals
      rw [← same.2.2]
      exact goes a _ (by simp [*]) (by simp)
  | resume a =>
    obtain ⟨scheduled, rfl⟩ := of_ite took
    exact ⟨threw, rfl, goes a _ (by simp [scheduled]) (by simp)⟩
  | call q =>
    obtain ⟨idle, rfl⟩ := of_ite took
    exact ⟨elsewhere q _ (by simp [idle]), rfl, fun _ => Iff.rfl⟩
  | cancel q own =>
    simp only [State.step, State.cancel, closed] at took
    split at took
    · rename_i here
      cases took
      exact ⟨elsewhere q _ (by simp [here]), rfl, fun _ => Iff.rfl⟩
    · rename_i working
      exact absurd working (idle q)
    all_goals cases took
  | throws q =>
    simp only [State.step, State.throws] at took
    split at took
    · rename_i working _
      exact absurd working (idle q)
    · cases took
  | onCancel | add | unregister | run =>
    obtain ⟨-, -, awaiter, canceler, work⟩ := registers_frame took rfl
    exact ⟨canceler ▸ threw, work, fun _ => by rw [awaiter]⟩

/-- Nothing but a callback that throws takes an exception out of `cancel()`. -/
theorem threw_before (took : s.step label = some t) (quiet : ∀ q, label ≠ .throws q)
    (threw : t.canceler p = .threw) : s.canceler p = .threw := by
  have elsewhere : ∀ q pc, pc ≠ .threw → update s.canceler q pc p = .threw →
      s.canceler p = .threw := by
    intro q pc other threw
    rwa [update_of_ne] at threw
    rintro rfl
    exact other ((update_self ..).symm.trans threw)
  cases label with
  | throws q => exact absurd rfl (quiet q)
  | advance a spurious => exact (advance_protocol took).2.1 ▸ threw
  | call q =>
    obtain ⟨-, rfl⟩ := of_ite took
    exact elsewhere q _ (by simp) threw
  | cancel q own =>
    simp only [State.step, State.cancel, State.proceed] at took
    repeat' split at took
    all_goals cases took
    all_goals first | exact threw | exact elsewhere q _ (by simp) threw
  | onCancel | add | unregister | run => rwa [(registers_frame took rfl).2.2.2.1] at threw
  | _ =>
    obtain ⟨-, rfl⟩ := of_ite took
    exact threw

omit [DecidableEq A] in
theorem threw_throws (took : s.throws p = some t) : t.canceler p = .threw ∧
    (∃ r left waiters, s.work = .start r left waiters ∧ t.work = .callbacks left waiters) ∧
    t.awaiter = s.awaiter := by
  unfold State.throws at took
  split at took
  · rename_i r left waiters _ work
    cases took
    exact ⟨update_self .., ⟨r, left, waiters, work, rfl⟩, rfl⟩
  · cases took

/-- A property of the loops at rest holds behind every exception exactly if every callback that
threw found it so. -/
theorem at_rest_iff {Q : State A P R → Prop} (run : Reaches labels s)
    (frozen : ∀ {labels s t label} {p : P}, Reaches labels s → s.canceler p = .threw →
      s.step label = some t → (Q t ↔ Q s))
    (thrown : ∀ {s t : State A P R} {p}, s.throws p = some t → (Q t ↔ Q s)) :
    (∀ p, s.canceler p = .threw → Q s) ↔
      Run State.step (fun s label => ∀ p, label = .throws p → Q s) {} labels s := by
  refine run.ends_iff (I := fun s => ∃ labels, Reaches labels s)
    (P := fun s => ∀ p, s.canceler p = .threw → Q s) ⟨[], .refl⟩ nofun
    (fun ⟨labels, run⟩ took => ⟨_, run.next trivial took⟩) ?_
  rintro s t label ⟨labels, run⟩ took
  by_cases quiet : ∀ q, label ≠ .throws q
  · constructor
    · intro after
      refine ⟨fun p threw => ?_, fun p same => absurd same (quiet p)⟩
      exact (frozen run threw took).mp (after p (CancelState.frozen run threw took).1)
    · rintro ⟨before, -⟩ p threw
      have threw := threw_before took quiet threw
      exact (frozen run threw took).mpr (before p threw)
  · push Not at quiet
    obtain ⟨q, rfl⟩ := quiet
    constructor
    · intro after
      have here := (thrown took).mp (after q (threw_throws took).1)
      exact ⟨fun _ _ => here, fun _ _ => here⟩
    · rintro ⟨-, here⟩ p -
      exact (thrown took).mpr (here q rfl)

theorem stays_suspended (run : Reaches labels s) (threw : s.canceler p = .threw)
    (later : Run State.step free s more t) (a : A) :
    t.awaiter a = .suspended ↔ s.awaiter a = .suspended := by
  refine (later.invariant (P := fun t => (∃ labels, Reaches labels t) ∧ t.canceler p = .threw ∧
    (t.awaiter a = .suspended ↔ s.awaiter a = .suspended)) ⟨⟨labels, run⟩, threw, Iff.rfl⟩ ?_).2.2
  rintro u v label ⟨⟨labels, run⟩, threw, same⟩ - took
  obtain ⟨threw', -, same'⟩ := frozen run threw took
  exact ⟨⟨_, run.next trivial took⟩, threw', (same' a).trans same⟩

/-- No callback of the loop throws while an awaiter is still to be resumed. -/
def SparesAwaiters (s : State A P R) (label : Action A P R) : Prop :=
  ∀ p, label = .throws p → ∀ a, s.awaiter a ≠ .suspended

theorem settles (run : Reaches labels s) : OneShot.ExactlyOnce (collect State.step events {} labels)
      (fun a => past (s.awaiter a)) (fun p => (s.canceler p).decided) (s.waiters = .closed) ∧
    (∀ p a, s.canceler p = .working → s.work = .resume (some a) → s.awaiter a = .suspended) ∧
    (s.waiters = .closed → ((∃ p n t,
      exec State.step s (List.replicate n (.cancel p true)) = some t ∧
        ∀ a, t.awaiter a ≠ .suspended) ↔
      Run State.step SparesAwaiters {} labels s)) := by
  have spares := at_rest_iff (Q := fun s => ∀ a, s.awaiter a ≠ .suspended) run
    (fun run threw took => forall_congr' fun a => not_congr ((frozen run threw took).2.2 a))
    (fun took => by rw [(threw_throws took).2.2])
  obtain ⟨o, runs, history⟩ := protocol run
  rw [← history]
  have closed : s.waiters = .closed ↔ o.head = none := by
    rw [runs.awaits.head]
    cases s.waiters <;> simp [top]
  refine ⟨runs.inv.exactlyOnce (fun a => (runs.awaits.alike a).past_iff)
    (fun p => (runs.canceler p).decided_iff) (by simpa using closed),
    fun p a working at_ => ?_, fun shut => ?_⟩
  · have walking := runs.walks (.inl working)
    rw [at_] at walking
    exact (runs.awaits.alike a).suspended_iff.mpr (runs.inv.waits walking)
  refine Iff.trans ⟨?_, ?_⟩ spares
  · rintro ⟨q, n, t, done, none⟩ p threw a suspended
    exact none a ((stays_suspended run threw (.of_exec done) a).mpr suspended)
  intro spared
  obtain ⟨nodes, -, waiting, holds⟩ := runs.inv.nodes
  have suspended : ∀ a, s.awaiter a = .suspended ↔ a ∈ nodes := fun a =>
    (runs.awaits.alike a).suspended_iff.trans (waiting a)
  unfold OneShot.Holds at holds
  rw [closed.mp shut] at holds
  obtain ⟨p, ⟨-, rfl⟩ | ⟨node, walking, chain⟩⟩ := holds
  · exact ⟨p, 0, s, rfl, fun a at_ => by simpa using (suspended a).mp at_⟩
  rw [runs.awaits.next] at chain
  have here := runs.canceler p
  rw [walking] at here
  cases at_ : s.canceler p with
  | threw => exact ⟨p, 0, s, rfl, spared p at_⟩
  | returned | idle | close => simp [at_, CancelAlike] at here
  | working =>
  have working := at_
  have same : s.work.node = node := by
    cases (runs.walks (.inl working)).symm.trans walking
    rfl
  have ends : Leads p s fun t => ∀ a, t.awaiter a ≠ .suspended := by
    refine (work_ends working).trans fun {t} has => ?_
    obtain ⟨n, u, done, left⟩ := resume_ends (has.next ▸ same ▸ chain) has.working
      has.work
    refine ⟨n, u, done, fun a at_ => (left a at_).2 ((suspended a).mp ?_)⟩
    rw [← has.awaiter]
    exact (left a at_).1
  obtain ⟨n, t, done, none⟩ := ends
  exact ⟨p, n, t, done, none⟩

end Nitrocoro.CancelState

namespace Nitrocoro.Awaiters
open LockFreeList Transition

/-- In every run of any number of awaiters and closing calls, an awaiter that is past its `co_await`
has either not suspended or was resumed once, and each resumption meets a suspended awaiter. One
closing call has found the list open, the others found it closed. By its own steps that call comes
to the point where nobody is suspended, for `cancel()` exactly if no callback of its loop has thrown
while an awaiter was to be resumed. -/
theorem resumed_exactly_once {A P R T E : Type} [DecidableEq A] [DecidableEq P] [DecidableEq R] :
    (∀ labels (s : Future.State A P T E), Future.Reaches free labels s →
      OneShot.ExactlyOnce (collect Future.step Future.events {} labels)
        (fun a => past (s.awaiter a)) (fun p => (s.setter p).decided) (s.waiters = .closed) ∧
      (∀ p a, s.setter p = .resumeAll (some a) → s.awaiter a = .suspended) ∧
      (s.waiters = .closed → ∃ p n t, exec Future.step s (List.replicate n (.set p)) = some t ∧
          ∀ a, t.awaiter a ≠ .suspended)) ∧
    (∀ labels (s : CancelState.State A P R), CancelState.Reaches labels s →
      OneShot.ExactlyOnce (collect CancelState.State.step CancelState.events {} labels)
        (fun a => past (s.awaiter a)) (fun p => (s.canceler p).decided) (s.waiters = .closed) ∧
      (∀ p a, s.canceler p = .working → s.work = .resume (some a) → s.awaiter a = .suspended) ∧
      (s.waiters = .closed → ((∃ p n t,
        exec CancelState.State.step s (List.replicate n (.cancel p true)) = some t ∧
          ∀ a, t.awaiter a ≠ .suspended) ↔
        Run CancelState.State.step CancelState.SparesAwaiters {} labels s))) :=
  ⟨fun _ _ run => Future.settles run, fun _ _ run => CancelState.settles run⟩

/-- An awaiter is suspended, another one is about to push when the list is closed. -/
def closedMeanwhile : List (Future.Action Nat Nat Nat Nat) :=
  [.await 0, .advance 0 false, .advance 0 false, .advance 0 false, .await 1, .advance 1 false,
    .advance 1 false, .call 0 .setVoid, .call 1 .setVoid, .set 0, .set 1, .advance 1 false]

def canceledMeanwhile : List (CancelState.Action Nat Nat Nat) :=
  [.await 0, .advance 0 false, .advance 0 false, .advance 0 false, .await 1, .advance 1 false,
    .advance 1 false, .call 0, .call 1, .cancel 0 true, .cancel 1 true, .advance 1 false]

theorem resumed_exactly_once_meanwhile :
    (∃ s, exec Future.step {} closedMeanwhile = some s ∧ s.awaiter 0 = .suspended ∧
      s.awaiter 1 = .resumed ∧ ∃ p n t, exec Future.step s (List.replicate n (.set p)) = some t ∧
          ∀ a, t.awaiter a ≠ .suspended) ∧
    ∃ s, exec CancelState.State.step {} canceledMeanwhile = some s ∧
      s.awaiter 0 = .suspended ∧ s.awaiter 1 = .resumed ∧ ∃ p n t,
        exec CancelState.State.step s (List.replicate n (.cancel p true)) = some t ∧
          ∀ a, t.awaiter a ≠ .suspended := by
  have both := resumed_exactly_once (A := Nat) (P := Nat) (R := Nat) (T := Nat) (E := Nat)
  constructor
  · have ends : ∃ s, exec Future.step {} closedMeanwhile = some s ∧
        s.awaiter 0 = .suspended ∧ s.awaiter 1 = .resumed ∧ s.waiters = .closed :=
      exec_any (by decide)
    obtain ⟨s, done, suspended, resumed, closed⟩ := ends
    exact ⟨s, done, suspended, resumed, (both.1 _ s (.of_exec done)).2.2 closed⟩
  · have ends : ∃ s, exec CancelState.State.step {} canceledMeanwhile = some s ∧
        s.awaiter 0 = .suspended ∧ s.awaiter 1 = .resumed ∧ s.waiters = .closed :=
      exec_any (by decide)
    obtain ⟨s, done, suspended, resumed, closed⟩ := ends
    have quiet : ∀ label ∈ canceledMeanwhile, ∀ p, label ≠ .throws p := by
      simp [canceledMeanwhile]
    have spared : Run _ CancelState.SparesAwaiters _ _ s :=
      ((Run.of_exec done).restrict quiet).relax
        fun quiet p throws => absurd throws (quiet p)
    exact ⟨s, done, suspended, resumed, ((both.2 _ s (.of_exec done)).2.2 closed).mpr spared⟩

/-- An awaiter is suspended and a callback registered, and the callback throws. -/
def thrownMeanwhile : List (CancelState.Action Nat Nat Nat) :=
  [.await 0, .advance 0 false, .advance 0 false, .advance 0 false, .onCancel 0 false, .add 0 true,
    .call 0, .cancel 0 true, .cancel 0 true, .cancel 0 true, .cancel 0 true, .throws 0, .call 1,
    .cancel 1 true]

theorem suspended_for_ever : ∃ s, exec CancelState.State.step {} thrownMeanwhile = some s ∧
      s.canceler 1 = .returned ∧ s.awaiter 0 = .suspended ∧
      ∀ more t, Run CancelState.State.step free s more t →
        t.awaiter 0 = .suspended := by
  obtain ⟨s, done, threw, returned, suspended⟩ : ∃ s,
      exec CancelState.State.step {} thrownMeanwhile = some s ∧
        s.canceler 0 = .threw ∧ s.canceler 1 = .returned ∧ s.awaiter 0 = .suspended :=
    exec_any (by decide)
  refine ⟨s, done, returned, suspended, fun more t later => ?_⟩
  exact (CancelState.stays_suspended (.of_exec done) threw later 0).mpr suspended

end Nitrocoro.Awaiters
