import Nitrocoro.Core.Future

/-! When an awaiter can reach `await_resume` too early. The setters close the
waiter list before they store the result, and `await_ready` and a failing push
trust the closed list. Exactly the awaiters that look at the list inside this
window reach `await_resume` before the store. -/

namespace Nitrocoro.Future
open LockFreeList Function Transition State
variable {A P T E : Type} {s t : State A P T E}

/-- Between its close and its store this setter is the only one that holds a result. -/
structure Invariant (s : State A P T E) : Prop where
  opened : s.waiters ≠ .closed → s.closedBy = none
  closed : s.waiters = .closed → s.settled ∨ ∃ p result top, s.setter p = .store result top
  stored : ∀ result, s.stored = some result →
    ∃ call, s.closedBy = some call ∧ call.result = some result
  storing : ∀ p result top, s.setter p = .store result top →
    s.waiters = .closed ∧ s.stored = none ∧
      ∃ call, s.closedBy = some call ∧ call.result = some result
  single : ∀ p q result result' top top', s.setter p = .store result top →
    s.setter q = .store result' top' → p = q
  resuming : ∀ p node, s.setter p = .resumeAll node → s.settled
  scheduled : ∀ a, s.awaiter a = .scheduled → s.settled

theorem initial_invariant : Invariant ({} : State A P T E) where
  opened _ := rfl
  closed := nofun
  stored := nofun
  storing := nofun
  single := nofun
  resuming := nofun
  scheduled := nofun

theorem settled_congr (closedBy : t.closedBy = s.closedBy)
    (stored : t.stored = s.stored) : t.settled = s.settled := by
  simp only [settled, closedBy, stored]

theorem Invariant.settled_iff (inv : Invariant s) :
    s.settled ↔ ∃ call, s.closedBy = some call ∧ s.stored = call.result := by
  cases closed : s.closedBy with
  | none => simp [settled, closed]
  | some call =>
    cases stored : s.stored with
    | none => cases result : call.result <;> simp [settled, closed, stored, result]
    | some result =>
      obtain ⟨_, same, found⟩ := inv.stored result stored
      cases closed.symm.trans same
      simp [settled, closed, stored, found]

theorem Invariant.open_fresh (inv : Invariant s) (open_ : s.waiters = .list top) :
    s.stored = none ∧ (∀ p result top', s.setter p ≠ .store result top') ∧
      (∀ p node, s.setter p ≠ .resumeAll node) ∧ ∀ a, s.awaiter a ≠ .scheduled := by
  have noCall := inv.opened (by simp [open_])
  have unsettled : ¬ s.settled := by simp [settled, noCall]
  refine ⟨?_, ?_, fun p node at_ => unsettled (inv.resuming p node at_),
    fun a at_ => unsettled (inv.scheduled a at_)⟩
  · cases stored : s.stored with
    | none => rfl
    | some result =>
      obtain ⟨_, called, _⟩ := inv.stored result stored
      rw [noCall] at called
      cases called
  · intro p result top' at_
    have closed := (inv.storing p result top' at_).1
    rw [open_] at closed
    cases closed

theorem Invariant.goto [DecidableEq A] (inv : Invariant s)
    (pc : AwaiterPC A) (awaiter : t.awaiter = update s.awaiter a pc)
    (setter : t.setter = s.setter) (closedBy : t.closedBy = s.closedBy)
    (stored : t.stored = s.stored) (opened : t.waiters = .closed ↔ s.waiters = .closed)
    (woken : pc = .scheduled → s.settled) : Invariant t where
  opened open_ := closedBy ▸ inv.opened fun closed => open_ (opened.mpr closed)
  closed closed := by
    rw [settled_congr closedBy stored, setter]
    exact inv.closed (opened.mp closed)
  stored := by rw [closedBy, stored]; exact inv.stored
  storing := by rw [closedBy, setter, stored, opened]; exact inv.storing
  single := by rw [setter]; exact inv.single
  resuming := by rw [settled_congr closedBy stored, setter]; exact inv.resuming
  scheduled b at_ := by
    rw [settled_congr closedBy stored]
    rw [awaiter, update_apply] at at_
    split at at_
    · exact woken at_
    · exact inv.scheduled b at_

theorem Invariant.setGoto [DecidableEq P] (inv : Invariant s)
    (was : ∀ result top, s.setter p ≠ .store result top) (pc : SetterPC A T E)
    (now : ∀ result top, pc ≠ .store result top)
    (resuming : ∀ node, pc = .resumeAll node → s.settled) : Invariant (s.setGoto p pc) := by
  have store_iff : ∀ q result top,
      update s.setter p pc q = .store result top ↔ s.setter q = .store result top := by
    intro q result top
    rw [update_apply]
    split
    · rename_i same
      subst same
      simp only [now, was]
    · rfl
  refine ⟨inv.opened, ?_, inv.stored, ?_, ?_, ?_, inv.scheduled⟩
  · simp only [State.setGoto, store_iff]
    exact inv.closed
  · simp only [State.setGoto, store_iff]
    exact inv.storing
  · simp only [State.setGoto, store_iff]
    exact inv.single
  intro q node at_
  simp only [State.setGoto, update_apply] at at_
  split at at_
  · exact resuming node at_
  · exact inv.resuming q node at_

section
variable [DecidableEq A]

theorem reach_invariant (inv : Invariant s) (a : A) : Invariant (s.reach a) :=
  inv.goto .resumed rfl rfl rfl rfl Iff.rfl nofun

theorem pushSaw_invariant (inv : Invariant s) (a : A) (head : Head A) :
    Invariant (s.pushSaw a head) := by
  cases head with
  | closed => exact reach_invariant inv a
  | list cur => exact inv.goto (.attempt cur) rfl rfl rfl rfl Iff.rfl nofun

end

variable [DecidableEq P]

theorem close_void_invariant (inv : Invariant s)
    (open_ : s.waiters = .list top) (at_ : s.setter p = .close call) (void : call.result = none) :
    Invariant ({ s with waiters := .closed, closedBy := some call }.setGoto p (.resumeAll top)) := by
  obtain ⟨stored, storing, -, -⟩ := inv.open_fresh open_
  have settled : settled { s with waiters := .closed, closedBy := some call } := by
    simp [settled, void]
  refine Invariant.setGoto ?_ (by simp [at_]) _ nofun fun _ _ => settled
  exact ⟨fun open_ => absurd rfl open_, fun _ => .inl settled, by simp [stored],
    fun p result top at_ => absurd at_ (storing p result top),
    fun p _ result _ top _ at_ => absurd at_ (storing p result top),
    fun _ _ _ => settled, fun _ _ => settled⟩

/-- The step that opens the window: the list is closed while the result is still a
local variable of the setter. -/
theorem close_invariant (inv : Invariant s)
    (open_ : s.waiters = .list top) (result : call.result = some found) : Invariant
      ({ s with waiters := .closed, closedBy := some call }.setGoto p (.store found top)) := by
  obtain ⟨stored, storing, resuming, scheduled⟩ := inv.open_fresh open_
  have only : ∀ q result' top', update s.setter p (.store found top) q =
      .store result' top' → q = p ∧ result' = found := by
    intro q result' top' at_
    rw [update_apply] at at_
    split at at_
    · cases at_
      exact ⟨‹q = p›, rfl⟩
    · exact absurd at_ (storing q result' top')
  refine ⟨fun open_ => absurd rfl open_, fun _ => .inr ⟨p, found, top, by simp [setGoto]⟩,
    by simp [setGoto, stored], ?_, ?_, ?_, fun a at_ => absurd at_ (scheduled a)⟩
  · intro q result' top' at_
    obtain ⟨rfl, rfl⟩ := only q result' top' at_
    exact ⟨rfl, stored, call, rfl, result⟩
  · intro q q' _ _ _ _ at_ at_'
    rw [(only q _ _ at_).1, (only q' _ _ at_').1]
  intro q node at_
  simp only [setGoto, update_apply] at at_
  split at at_
  · cases at_
  · exact absurd at_ (resuming q node)

theorem store_invariant (inv : Invariant s) (at_ : s.setter p = .store result top) :
    Invariant ({ s with stored := some result }.setGoto p (.resumeAll top)) := by
  obtain ⟨closed, _, call, called, same⟩ := inv.storing p result top at_
  have settled : settled ({ s with stored := some result }.setGoto p (.resumeAll top)) := by
    simp [settled, setGoto, called]
  have none_storing : ∀ q result' top',
      update s.setter p (.resumeAll top) q ≠ .store result' top' := by
    intro q result' top' there
    rw [update_apply] at there
    split at there
    · cases there
    · exact absurd (inv.single q p _ _ _ _ there at_) ‹¬ q = p›
  refine ⟨fun open_ => absurd closed open_, fun _ => .inl settled, ?_,
    fun q _ _ there => absurd there (none_storing q _ _),
    fun q _ _ _ _ _ there => absurd there (none_storing q _ _),
    fun _ _ _ => settled, fun _ _ => settled⟩
  rintro _ ⟨⟩
  exact ⟨call, called, same⟩

variable [DecidableEq A]

theorem step_invariant (inv : Invariant s) (took : step s label = some t) : Invariant t := by
  cases effect_of_step took with
  | call idle | destroyClosed idle | destroyOpen idle | lost idle | finished idle =>
    exact inv.setGoto (by simp [idle]) _ nofun nofun
  | wonVoid at_ opened void => exact close_void_invariant inv opened at_ void
  | won _ opened result => exact close_invariant inv opened result
  | store at_ => exact store_invariant inv at_
  | @woken p node at_ =>
    have settled := inv.resuming p _ at_
    have woken : Invariant (s.goto node .scheduled) :=
      inv.goto .scheduled rfl rfl rfl rfl Iff.rfl fun _ => settled
    exact woken.setGoto (by simp [goto, at_]) _ nofun fun _ _ => settled
  | await | unready => exact inv.goto _ rfl rfl rfl rfl Iff.rfl nofun
  | ready | resume => exact reach_invariant inv _
  | load => exact pushSaw_invariant inv _ s.waiters
  | pushed _ same => exact inv.goto .suspended rfl rfl rfl rfl (by simp [goto, same]) nofun
  | @retry a cur =>
    have linked : Invariant { s with next := update s.next a cur } :=
      { inv with }
    exact pushSaw_invariant linked a s.waiters

theorem reaches_invariant (run : Reaches allowed labels s) : Invariant s :=
  run.invariant initial_invariant fun inv _ took => step_invariant inv took

def Storing (s : State A P T E) : Prop :=
  ∃ p result top, s.setter p = .store result top

/-- No awaiter looks at the list while a setter is between its close and its store. -/
def outsideWindow (s : State A P T E) : Action A P T E → Prop
  | .advance _ _ => ¬ Storing s
  | _ => True

omit [DecidableEq P] [DecidableEq A] in
theorem Invariant.storing_iff (inv : Invariant s) :
    Storing s ↔ s.waiters = .closed ∧ s.settled = false := by
  constructor
  · rintro ⟨p, result, top, at_⟩
    obtain ⟨closed, stored, call, called, same⟩ := inv.storing p result top at_
    exact ⟨closed, by simp [settled, called, same, stored]⟩
  · rintro ⟨closed, unsettled⟩
    exact (inv.closed closed).resolve_left (by simp [unsettled])

omit [DecidableEq P] in
theorem pushSaw_early (inv : Invariant s) (a : A)
    (early : t.early = s.early) (settled : t.settled = s.settled) :
    (t.pushSaw a s.waiters).early = s.early ∧ ¬ Storing s ∨
      (t.pushSaw a s.waiters).early = s.early ++ [a] ∧ Storing s := by
  rw [inv.storing_iff]
  cases s.waiters with
  | list cur => exact .inl ⟨early, nofun⟩
  | closed => cases known : s.settled <;> simp [pushSaw, reach, goto, *]

omit [DecidableEq P] in
theorem reach_settled_early (settled : s.settled) (a : A) : (s.reach a).early = s.early := by
  simp only [reach, goto, settled, if_pos]

theorem step_early (inv : Invariant s) (took : step s label = some t) :
    t.early = s.early ∧ outsideWindow s label ∨
      (∃ a, t.early = s.early ++ [a]) ∧ ¬ outsideWindow s label := by
  -- a closed list is treated by `await_ready` as by a push
  have looked : ∀ {a} {u : State A P T E}, u.early = s.early → u.settled = s.settled →
      (u.pushSaw a s.waiters).early = s.early ∧ ¬ Storing s ∨
        (∃ b, (u.pushSaw a s.waiters).early = s.early ++ [b]) ∧ ¬¬ Storing s :=
    fun {a} _ early settled => (pushSaw_early inv a early settled).imp_right fun ⟨early, inside⟩ =>
      ⟨⟨a, early⟩, not_not_intro inside⟩
  have opened : ∀ {top}, s.waiters = .list top → ¬ Storing s := by
    intro top open_
    simp [inv.storing_iff, open_]
  cases effect_of_step took with
  | @ready a _ _ closed =>
    have looked := looked (a := a) rfl rfl
    rw [closed] at looked
    exact looked
  | unready _ open_ => exact .inl ⟨rfl, opened open_⟩
  | load | retry => exact looked rfl rfl
  | pushed _ same => exact .inl ⟨rfl, opened same⟩
  | @resume a at_ => exact .inl ⟨reach_settled_early (inv.scheduled a at_) a, trivial⟩
  | _ => exact .inl ⟨rfl, trivial⟩

/-- The runs without an early awaiter are those whose looks all miss the window. -/
theorem early_nil_iff (run : Reaches free labels s) :
    s.early = [] ↔ Reaches outsideWindow labels s :=
  run.history_nil_iff initial_invariant rfl (fun inv took => step_invariant inv took)
    fun inv took => step_early inv took

/-- Every awaiter past `await_resume` finds a settled state or is recorded as early. -/
def Accounted (s : State A P T E) : Prop :=
  ∀ a, s.awaiter a = .resumed → s.settled ∨ a ∈ s.early

omit [DecidableEq P] [DecidableEq A] in
theorem Accounted.keep (kept : Accounted s)
    (awaiter : ∀ a, t.awaiter a = .resumed → s.awaiter a = .resumed)
    (settled : s.settled → t.settled) (early : t.early = s.early) : Accounted t :=
  fun a at_ => early ▸ (kept a (awaiter a at_)).imp_left settled

omit [DecidableEq P] in
theorem goto_resumed {pc : AwaiterPC A} (other : pc ≠ .resumed)
    (at_ : (s.goto a pc).awaiter b = .resumed) : s.awaiter b = .resumed := by
  simp only [goto, update_apply] at at_
  split at at_
  · exact absurd at_ other
  · exact at_

omit [DecidableEq P] in
theorem reach_accounted (kept : Accounted s) (a : A) : Accounted (s.reach a) := by
  intro b at_
  simp only [reach, goto] at at_ ⊢
  cases known : s.settled with
  | true => exact .inl known
  | false =>
    by_cases same : b = a
    · simp [same]
    · have before := (kept b (by simpa [same] using at_)).resolve_left (by simp [known])
      simp [before]

omit [DecidableEq P] in
theorem pushSaw_accounted (kept : Accounted s) (a : A) (head : Head A) :
    Accounted (s.pushSaw a head) := by
  cases head with
  | closed => exact reach_accounted kept a
  | list cur => exact kept.keep (fun _ => goto_resumed nofun) id rfl

theorem step_accounted (inv : Invariant s) (kept : Accounted s)
    (took : step s label = some t) : Accounted t := by
  have unsettled : ∀ {top}, s.waiters = .list top → ¬ s.settled := by
    intro top open_
    simp [settled, inv.opened (by simp [open_])]
  cases effect_of_step took with
  | wonVoid _ opened | won _ opened =>
    exact kept.keep (fun _ => id) (fun settled => absurd settled (unsettled opened)) rfl
  | @store p result top at_ =>
    obtain ⟨_, _, call, called, _⟩ := inv.storing p result top at_
    exact kept.keep (fun _ => id) (fun _ => by simp [settled, setGoto, called]) rfl
  | woken | await | unready | pushed => exact kept.keep (fun _ => goto_resumed nofun) id rfl
  | ready | resume => exact reach_accounted kept _
  | load => exact pushSaw_accounted kept _ s.waiters
  | @retry a cur =>
    have linked : Accounted { s with next := update s.next a cur } := kept
    exact pushSaw_accounted linked a s.waiters
  | _ => exact kept.keep (fun _ => id) id rfl

theorem reaches_accounted (run : Reaches allowed labels s) : Accounted s := by
  have both := run.invariant (P := fun s => Invariant s ∧ Accounted s)
    ⟨initial_invariant, nofun⟩ fun kept _ took =>
      ⟨step_invariant kept.1 took, step_accounted kept.1 kept.2 took⟩
  exact both.2

/-- No awaiter reaches `await_resume` before the result is stored exactly in the runs
in which none looks at the list while a setter is between its close and its store.
There an awaiter past `await_resume` finds what the closing call had to store. -/
theorem await_resume_after_store {s : State A P T E} (run : Reaches free labels s) :
    (s.early = [] ↔ Reaches outsideWindow labels s) ∧
      (Reaches outsideWindow labels s → ∀ a, s.awaiter a = .resumed →
        ∃ call, s.closedBy = some call ∧ s.stored = call.result) := by
  refine ⟨early_nil_iff run, fun outside a at_ => ?_⟩
  have early := (early_nil_iff run).mpr outside
  have settled := (reaches_accounted run a at_).resolve_right (by simp [early])
  exact (reaches_invariant run).settled_iff.mp settled

def awaitLate : List (Action Nat Nat Nat Nat) :=
  [.call 0 (.setValue 7), .set 0, .set 0, .await 0, .advance 0 false]

def awaitInWindow : List (Action Nat Nat Nat Nat) :=
  [.call 0 (.setValue 7), .set 0, .await 0, .advance 0 false]

theorem await_resume_after_store_late : ∃ s, Reaches free awaitLate s ∧ s.awaiter 0 = .resumed ∧
      (s.early = [] ↔ Reaches outsideWindow awaitLate s) ∧ s.early = [] := by
  have run : Reaches free awaitLate _ := .of_exec rfl
  exact ⟨_, run, rfl, (await_resume_after_store run).1, rfl⟩

theorem await_resume_before_store : ∃ s, Reaches free awaitInWindow s ∧ s.awaiter 0 = .resumed ∧
      s.stored.isNone ∧ s.early = [0] :=
  ⟨_, .of_exec rfl, rfl, rfl, rfl⟩

end Nitrocoro.Future
