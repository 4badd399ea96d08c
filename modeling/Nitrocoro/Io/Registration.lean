import Nitrocoro.Core.IoContext

/-! Channels from their constructors to their destructors, on the thread of a scheduler or on other
threads. Both dispatch a function: on the thread of the scheduler it is run at once, from another
thread it goes to the ready queue. The one of the constructor does nothing if the channel has
released its `state_` by then. -/
namespace Nitrocoro.Io.Registration
open Function Transition List Option
open IoContexts (Update)

inductive Life where
  | none
  | alive
  /-- The destructor has posted its function and `state_` is still there. -/
  | closing
  | dead
  deriving DecidableEq

inductive Job where
  | register (id : Nat)
  | remove (id : Nat)
  deriving DecidableEq

structure State where
  /-- `nextIoId`. -/
  nextId : Nat := 0
  fd : Nat → Nat := fun _ => 0
  life : Nat → Life := fun _ => .none
  readyQueue : List Job := []
  /-- The entries of `ioContexts_`, by their numbers. -/
  ioContexts : Nat → IoContexts.State := fun _ => {}
  /-- History: the channels whose removal found no entry, those that `setIoHandler` or `updateIo`
  was called for, and those that were removed. -/
  missed : List Nat := []
  entered : Nat → Bool := fun _ => false
  removed : Nat → Bool := fun _ => false
  /-- History: the channels that have entered since the newest one of them was removed. -/
  served : Nat → List Nat := fun _ => []

inductive Action where
  | create (fd : Nat) (own : Bool)
  | destroy (id : Nat) (own : Bool)
  /-- The destructor on another thread comes to its end. -/
  | release (id : Nat)
  /-- `enableReading` and the like, on the thread of the scheduler. -/
  | update (id : Nat) (ev : Update)
  /-- The loop runs the function in front of the queue. -/
  | run

def Newest (id : Nat) (ids : List Nat) : Prop := id ∈ ids ∧ ∀ other ∈ ids, other ≤ id

instance (id : Nat) (ids : List Nat) : Decidable (Newest id ids) :=
  inferInstanceAs (Decidable (_ ∧ _))

namespace State

def setLife (s : State) (id : Nat) (life : Life) : State :=
  { s with life := update s.life id life }

def setContext (s : State) (fd : Nat) (context : IoContexts.State) : State :=
  { s with ioContexts := update s.ioContexts fd context }

def enter (s : State) (id : Nat) : State :=
  { s with
    entered := update s.entered id true
    served := update s.served (s.fd id) (id :: s.served (s.fd id)) }

/-- There is no handler under the id of a channel before this, so the assertion holds. -/
def setIoHandler (s : State) (id : Nat) : Option State :=
  ((s.ioContexts (s.fd id)).setIoHandler id).map fun context =>
    (s.setContext (s.fd id) context).enter id

def updateIo (s : State) (id : Nat) (ev : Update) : State :=
  (s.setContext (s.fd id) ((s.ioContexts (s.fd id)).updateIo id ev)).enter id

def leave (s : State) (id : Nat) : State :=
  { s with
    removed := update s.removed id true
    served := update s.served (s.fd id)
      (if Newest id (s.served (s.fd id)) then [] else s.served (s.fd id)) }

/-- Where there is no entry, the iterator that is dereferenced is `end()`. -/
def removeIo (s : State) (id : Nat) : State :=
  match (s.ioContexts (s.fd id)).removeIo id with
  | some context => (s.setContext (s.fd id) context).leave id
  | none => { s with missed := s.missed ++ [id] }.leave id

def register (s : State) (id : Nat) : Option State :=
  if s.life id = .dead then some s else s.setIoHandler id

def step (s : State) : Action → Option State
  | .create fd own =>
    let created := { s with
      nextId := s.nextId + 1
      fd := update s.fd s.nextId fd }.setLife s.nextId .alive
    if own then created.register s.nextId
    else some { created with readyQueue := s.readyQueue ++ [.register s.nextId] }
  | .destroy id own =>
    if s.life id = .alive then
      if own then some ((s.removeIo id).setLife id .dead)
      else some ({ s with readyQueue := s.readyQueue ++ [Job.remove id] }.setLife id .closing)
    else none
  | .release id => if s.life id = .closing then some (s.setLife id .dead) else none
  | .update id ev => if s.life id = .alive then some (s.updateIo id ev) else none
  | .run =>
    match s.readyQueue with
    | [] => none
    | .register id :: rest => { s with readyQueue := rest }.register id
    | .remove id :: rest => some ({ s with readyQueue := rest }.removeIo id)

end State

abbrev Reaches (labels : List Action) (s : State) : Prop :=
  Run State.step free {} labels s

def removal (s : State) : Action → Option Nat
  | .destroy id true => some id
  | .run =>
    match s.readyQueue with
    | .remove id :: _ => some id
    | _ => none
  | _ => none

/-- Some channel of the number has entered since the newest one that had was removed. -/
def Served (s : State) (a : Action) : Prop := ∀ id ∈ removal s a, s.served (s.fd id) ≠ []

/-- The channel that is removed has entered, and every older one of the number that has was removed
before it. -/
def Orderly (s : State) (a : Action) : Prop :=
  ∀ id ∈ removal s a, s.entered id ∧
    ∀ older < id, s.fd older = s.fd id → s.entered older → s.removed older

instance (s : State) (a : Action) : Decidable (Orderly s a) :=
  match here : removal s a with
  | none => .isTrue fun id mem => by simp [here] at mem
  | some id =>
    decidable_of_iff (s.entered id ∧
        ∀ older < id, s.fd older = s.fd id → s.entered older → s.removed older) (by
      simp [Orderly, here])

variable {s t : State} {id : Nat} {a : Action}

/-- What the entry of a number has to do with the channels that have entered. -/
def Agrees (context : Option IoContexts.IoContext) (served : List Nat) : Prop :=
  match context with
  | none => served = []
  | some ctx => Newest ctx.id served

def Inv (s : State) : Prop := ∀ fd, Agrees (s.ioContexts fd).context (s.served fd)

theorem Newest.cons (newest : Newest id ids) (older : other ≤ id) : Newest id (other :: ids) :=
  ⟨mem_cons_of_mem _ newest.1, forall_mem_cons.mpr ⟨older, newest.2⟩⟩

theorem Agrees.newer (agrees : Agrees context ids) (newest : ∀ ctx, context = some ctx → ctx.id ≤ id) :
    Newest id (id :: ids) := by
  refine ⟨mem_cons_self, forall_mem_cons.mpr ⟨Nat.le_refl _, fun other mem => ?_⟩⟩
  cases context with
  | none => cases (show ids = [] from agrees) ▸ mem
  | some old => exact Nat.le_trans (agrees.2 other mem) (newest old rfl)

theorem agrees_set {context context' : IoContexts.State}
    (done : context.setIoHandler id = some context') (agrees : Agrees context.context ids) :
    Agrees context'.context (id :: ids) := by
  rcases IoContexts.setIoHandler_cases done with ⟨rfl, ctx, here, newer⟩ |
    ⟨newest, ctx, rfl, rfl, -⟩
  · rw [here] at agrees ⊢
    exact agrees.cons (Nat.le_of_lt newer)
  · exact agrees.newer newest

theorem agrees_update {context : IoContexts.State} (ev : Update)
    (agrees : Agrees context.context ids) :
    Agrees (context.updateIo id ev).context (id :: ids) := by
  rcases IoContexts.updateIo_cases context id ev with ⟨same, ctx, here, newer⟩ |
    ⟨newest, ctx, interest, same, rfl, -⟩
  · rw [same]
    rw [here] at agrees ⊢
    exact agrees.cons (Nat.le_of_lt newer)
  · rw [same]
    exact agrees.newer newest

theorem agrees_remove {context context' : IoContexts.State}
    (done : context.removeIo id = some context') (agrees : Agrees context.context ids) :
    Agrees context'.context (if Newest id ids then [] else ids) := by
  obtain ⟨ctx, here, ⟨rfl, other⟩ | ⟨rfl, -, rfl⟩⟩ := IoContexts.removeIo_cases done
  · rw [if_neg, here]
    · rwa [here] at agrees
    · intro newest
      rw [here] at agrees
      exact other (Nat.le_antisymm (newest.2 _ agrees.1) (agrees.2 _ newest.1))
  · rw [here] at agrees
    exact if_pos (show Newest ctx.id ids from agrees)

theorem removeIo_none_iff {context : IoContexts.State} (agrees : Agrees context.context ids) :
    context.removeIo id = none ↔ ids = [] := by
  unfold IoContexts.State.removeIo
  cases here : context.context with
  | none =>
    rw [here] at agrees
    exact iff_of_true rfl agrees
  | some ctx =>
    rw [here] at agrees
    refine iff_of_false ?_ (ne_nil_of_mem agrees.1)
    dsimp only
    split
    · nofun
    · split <;> nofun

namespace Inv

theorem put (inv : Inv s) (agrees : Agrees context.context served) (fd : Nat) :
    ∀ fd', Agrees (update s.ioContexts fd context fd').context
      (update s.served fd served fd') := by
  intro fd'
  rcases eq_or_ne fd' fd with rfl | other
  · rwa [update_self, update_self]
  · rw [update_of_ne other, update_of_ne other]
    exact inv fd'

theorem register (inv : Inv s) (done : s.register id = some t) : Inv t ∧ t.missed = s.missed := by
  unfold State.register at done
  split at done
  · cases done
    exact ⟨inv, rfl⟩
  · obtain ⟨context, set, rfl⟩ := map_eq_some_iff.mp done
    exact ⟨inv.put (agrees_set set (inv _)) _, rfl⟩

theorem removeIo (inv : Inv s) (id : Nat) : Inv (s.removeIo id) ∧
    ((s.removeIo id).missed = s.missed ∧ s.served (s.fd id) ≠ [] ∨
      (s.removeIo id).missed = s.missed ++ [id] ∧ s.served (s.fd id) = []) := by
  unfold State.removeIo
  cases done : (s.ioContexts (s.fd id)).removeIo id with
  | some context =>
    refine ⟨inv.put (agrees_remove done (inv _)) _, .inl ⟨rfl, fun none => ?_⟩⟩
    rw [(removeIo_none_iff (inv _)).mpr none] at done
    cases done
  | none =>
    have none := (removeIo_none_iff (inv _)).mp done
    refine ⟨fun fd => ?_, .inr ⟨rfl, none⟩⟩
    have same : (if Newest id (s.served (s.fd id)) then [] else s.served (s.fd id)) =
        s.served (s.fd id) := by
      rw [none]
      split <;> rfl
    simp only [State.leave, same, update_eq_self]
    exact inv fd

end Inv

theorem step_missed (inv : Inv s) (took : s.step a = some t) : Inv t ∧
    (t.missed = s.missed ∧ Served s a ∨ (∃ id, t.missed = s.missed ++ [id]) ∧ ¬ Served s a) := by
  have removes : ∀ {u : State} {id}, Inv u → u.missed = s.missed → removal s a = some id →
      u.served (u.fd id) = s.served (s.fd id) → t.missed = (u.removeIo id).missed →
      t.missed = s.missed ∧ Served s a ∨ (∃ id, t.missed = s.missed ++ [id]) ∧ ¬ Served s a := by
    intro u id inv missed removal same now
    rw [now, ← missed, Served, removal]
    simp only [mem_some_iff, forall_eq', ← same]
    rcases (inv.removeIo id).2 with ⟨found, some_⟩ | ⟨none, empty⟩
    · exact .inl ⟨found, some_⟩
    · exact .inr ⟨⟨id, none⟩, not_not.mpr empty⟩
  cases a with
  | create fd own =>
    simp only [State.step] at took
    split at took
    · have created : Inv ({ s with
          nextId := s.nextId + 1
          fd := update s.fd s.nextId fd }.setLife s.nextId .alive) := inv
      obtain ⟨inv', same⟩ := created.register took
      exact ⟨inv', .inl ⟨same, nofun⟩⟩
    · cases took
      exact ⟨inv, .inl ⟨rfl, nofun⟩⟩
  | destroy id own =>
    obtain ⟨-, took⟩ := ite_none_right_eq_some.mp took
    cases own with
    | true =>
      cases took
      exact ⟨(inv.removeIo id).1, removes inv rfl rfl rfl rfl⟩
    | false =>
      cases took
      exact ⟨inv, .inl ⟨rfl, nofun⟩⟩
  | release id =>
    obtain ⟨-, rfl⟩ := of_ite took
    exact ⟨inv, .inl ⟨rfl, nofun⟩⟩
  | update id ev =>
    obtain ⟨-, rfl⟩ := of_ite took
    exact ⟨inv.put (agrees_update ev (inv _)) _, .inl ⟨rfl, nofun⟩⟩
  | run =>
    cases queue : s.readyQueue with
    | nil => simp [State.step, queue] at took
    | cons job rest =>
      rw [State.step, queue] at took
      have popped : Inv { s with readyQueue := rest } := inv
      cases job with
      | register id =>
        obtain ⟨inv', same⟩ := popped.register took
        exact ⟨inv', .inl ⟨same, by simp [Served, removal, queue]⟩⟩
      | remove id =>
        cases took
        exact ⟨(popped.removeIo id).1, removes popped rfl (by simp [removal, queue]) rfl rfl⟩

theorem inv_start : Inv {} := fun _ => rfl

structure Jobs (s : State) : Prop where
  fresh : ∀ id, s.nextId ≤ id → s.life id = .none
  queued : ∀ id, .register id ∈ s.readyQueue → id < s.nextId
  once : ∀ id, s.readyQueue.count (.remove id) + (s.removed id).toNat ≤
    if s.life id = .none ∨ s.life id = .alive then 0 else 1

structure Keeps (s : State) : Prop where
  known : ∀ id, s.entered id → id < s.nextId
  kept : ∀ id, s.entered id → s.removed id = false → id ∈ s.served (s.fd id)

theorem removeIo_eq (s : State) (id : Nat) : ∃ ioContexts missed,
    s.removeIo id = { s with ioContexts, missed }.leave id := by
  unfold State.removeIo
  split
  · exact ⟨_, s.missed, rfl⟩
  · exact ⟨s.ioContexts, _, rfl⟩

namespace Keeps

theorem enter (keeps : Keeps s) (known : id < s.nextId) : Keeps (s.enter id) := by
  refine ⟨fun other entered => ?_, fun other entered here => ?_⟩
  · rcases eq_or_ne other id with rfl | away
    · exact known
    · exact keeps.known other (by simpa [State.enter, away] using entered)
  simp only [State.enter, update_apply] at entered ⊢
  split at entered
  · rename_i same
    rw [same, if_pos rfl]
    exact mem_cons_self
  have before := keeps.kept other entered here
  split
  · rename_i same
    rw [← same]
    exact mem_cons_of_mem _ before
  · exact before

theorem register (keeps : Keeps s) (known : id < s.nextId) (done : s.register id = some t) :
    Keeps t := by
  unfold State.register at done
  split at done
  · cases done
    exact keeps
  · obtain ⟨context, -, rfl⟩ := map_eq_some_iff.mp done
    have same : Keeps (s.setContext (s.fd id) context) := { keeps with }
    exact same.enter known

theorem removeIo (keeps : Keeps s)
    (older : ∀ older < id, s.fd older = s.fd id → s.entered older → s.removed older) :
    Keeps (s.removeIo id) := by
  obtain ⟨ioContexts, missed, same⟩ := removeIo_eq s id
  rw [same]
  refine ⟨keeps.known, fun other entered here => ?_⟩
  simp only [State.leave, update_apply] at here ⊢
  split at here
  · cases here
  rename_i away
  have before := keeps.kept other entered here
  split
  · rename_i number
    rw [number] at before
    rw [if_neg]
    · exact before
    intro newest
    have gone := older other (Nat.lt_of_le_of_ne (newest.2 other before) away) number entered
    rw [here] at gone
    cases gone
  · exact before

end Keeps

theorem Jobs.unremoved (jobs : Jobs s) (took : s.step a = some t)
    (removes : removal s a = some id) : s.removed id = false := by
  have once := jobs.once id
  cases a with
  | destroy other own =>
    cases own <;> cases removes
    simp only [State.step] at took
    split at took
    · rename_i alive
      rw [alive] at once
      cases gone : s.removed id with
      | false => rfl
      | true => simp [gone] at once
    · cases took
  | run =>
    simp only [removal] at removes
    split at removes <;> cases removes
    rename_i rest queue
    rw [queue] at once
    cases gone : s.removed id with
    | false => rfl
    | true =>
      rw [gone] at once
      split at once <;> simp at once
  | _ => cases removes

theorem Jobs.register (jobs : Jobs s) (done : s.register id = some t) : Jobs t := by
  unfold State.register at done
  split at done
  · cases done
    exact jobs
  · obtain ⟨-, -, rfl⟩ := map_eq_some_iff.mp done
    exact { jobs with }

theorem Jobs.create (jobs : Jobs s) (fd : Nat → Nat) :
    Jobs ({ s with nextId := s.nextId + 1, fd }.setLife s.nextId .alive) := by
  refine ⟨fun id later => ?_, fun id mem => Nat.lt_succ_of_lt (jobs.queued id mem), fun id => ?_⟩
  · exact (update_of_ne (Nat.ne_of_gt later) ..).trans
      (jobs.fresh id (Nat.le_of_succ_le later))
  have once := jobs.once id
  rcases eq_or_ne id s.nextId with rfl | other
  · rw [jobs.fresh _ (Nat.le_refl _)] at once
    simpa [State.setLife] using once
  · simpa [State.setLife, other] using once

theorem Jobs.move (jobs : Jobs s) (id : Nat) (known : s.life id ≠ .none)
    (nextId : t.nextId = s.nextId)
    (queued : ∀ other, .register other ∈ t.readyQueue → .register other ∈ s.readyQueue)
    (others : ∀ other, other ≠ id → t.life other = s.life other ∧ t.removed other = s.removed other ∧
      t.readyQueue.count (.remove other) = s.readyQueue.count (.remove other))
    (once : t.readyQueue.count (.remove id) + (t.removed id).toNat ≤
      if t.life id = .none ∨ t.life id = .alive then 0 else 1) : Jobs t := by
  refine ⟨fun other later => ?_, fun other mem => ?_, fun other => ?_⟩
  · rw [nextId] at later
    have other_ : other ≠ id := by
      rintro rfl
      exact known (jobs.fresh other later)
    rw [(others other other_).1]
    exact jobs.fresh other later
  · rw [nextId]
    exact jobs.queued other (queued other mem)
  rcases eq_or_ne other id with rfl | away
  · exact once
  · obtain ⟨life, removed, count⟩ := others other away
    rw [life, removed, count]
    exact jobs.once other

theorem Jobs.step (jobs : Jobs s) (took : s.step a = some t) : Jobs t := by
  cases a with
  | create fd own =>
    simp only [State.step] at took
    split at took
    · exact (jobs.create _).register took
    cases took
    obtain ⟨fresh, queued, once⟩ := jobs.create (update s.fd s.nextId fd)
    refine ⟨fresh, fun id mem => ?_, fun id => ?_⟩
    · rcases mem_append.mp mem with old | new
      · exact queued id old
      · cases mem_singleton.mp new
        exact Nat.lt_succ_self _
    · simpa [State.setLife] using once id
  | destroy id own =>
    have once := jobs.once id
    simp only [State.step] at took
    split at took
    · rename_i alive
      rw [alive] at once
      split at took <;> cases took
      · obtain ⟨ioContexts, missed, same⟩ := removeIo_eq s id
        rw [same]
        refine jobs.move id (by simp [alive]) rfl (fun _ mem => mem) (fun other away => ?_) ?_
        · simp [State.leave, State.setLife, away]
        · simp [State.leave, State.setLife] at once ⊢
          omega
      · refine jobs.move id (by simp [alive]) rfl (fun other mem => ?_) (fun other away => ?_) ?_
        · simpa [State.setLife] using mem
        · simp [State.setLife, away, away.symm]
        · obtain ⟨none, unremoved⟩ := Nat.add_eq_zero_iff.mp (Nat.le_zero.mp once)
          simp [State.setLife, none, unremoved]
    · cases took
  | release id =>
    obtain ⟨closing, rfl⟩ := of_ite took
    have once := jobs.once id
    rw [closing] at once
    refine jobs.move id (by simp [closing]) rfl (fun _ mem => mem) (fun other away => ?_) ?_
    · simp [State.setLife, away]
    · simpa [State.setLife] using once
  | update id ev =>
    obtain ⟨-, rfl⟩ := of_ite took
    exact { jobs with }
  | run =>
    simp only [State.step] at took
    split at took
    · cases took
    · rename_i id rest queue
      have popped : Jobs { s with readyQueue := rest } := by
        refine ⟨jobs.fresh, fun other mem => jobs.queued other ?_, fun other => ?_⟩
        · rw [queue]
          exact mem_cons_of_mem _ mem
        · simpa [queue] using jobs.once other
      exact popped.register took
    · rename_i id rest queue
      cases took
      have once := jobs.once id
      rw [queue, count_cons_self] at once
      obtain ⟨ioContexts, missed, same⟩ := removeIo_eq { s with readyQueue := rest } id
      rw [same]
      have gone : ¬ (s.life id = .none ∨ s.life id = .alive) := by
        intro early
        simp [early] at once
      refine jobs.move id (fun none => gone (.inl none)) rfl (fun other mem => ?_)
        (fun other away => ?_) ?_
      · rw [queue]
        exact mem_cons_of_mem _ mem
      · simp [State.leave, away, away.symm, queue]
      rw [if_neg gone] at once
      simp only [State.leave, if_neg gone]
      simp
      omega

theorem Keeps.step (keeps : Keeps s) (jobs : Jobs s) (orderly : Orderly s a)
    (took : s.step a = some t) : Keeps t := by
  cases a with
  | create fd own =>
    have created : Keeps ({ s with
        nextId := s.nextId + 1
        fd := update s.fd s.nextId fd }.setLife s.nextId .alive) := by
      refine ⟨fun id entered => Nat.lt_succ_of_lt (keeps.known id entered), fun id entered here => ?_⟩
      have other := Nat.ne_of_lt (keeps.known id entered)
      simp only [State.setLife, update_of_ne other]
      exact keeps.kept id entered here
    simp only [State.step] at took
    split at took
    · exact created.register (Nat.lt_succ_self _) took
    · cases took
      exact { created with }
  | destroy id own =>
    simp only [State.step] at took
    split at took
    · cases own <;> cases took
      · exact { keeps with }
      · have left := keeps.removeIo (orderly id rfl).2
        exact { left with }
    · cases took
  | release id =>
    obtain ⟨-, rfl⟩ := of_ite took
    exact { keeps with }
  | update id ev =>
    obtain ⟨alive, rfl⟩ := of_ite took
    have known : id < s.nextId := by
      by_contra later
      cases alive.symm.trans (jobs.fresh id (Nat.le_of_not_lt later))
    have same : Keeps (s.setContext (s.fd id) ((s.ioContexts (s.fd id)).updateIo id ev)) :=
      { keeps with }
    exact same.enter known
  | run =>
    simp only [State.step] at took
    split at took
    · cases took
    · rename_i id rest queue
      have popped : Keeps { s with readyQueue := rest } := { keeps with }
      exact popped.register (jobs.queued id (by rw [queue]; exact mem_cons_self)) took
    · rename_i id rest queue
      cases took
      have popped : Keeps { s with readyQueue := rest } := { keeps with }
      exact popped.removeIo (orderly id (by simp [removal, queue])).2

/-- In a run of constructions and destructions every removal finds an entry for its number exactly if
each time some channel of the number has entered since the newest one was removed; so it does if
each channel is removed after it has entered and after the older ones. -/
theorem removals_find_iff (run : Reaches labels s) :
    (s.missed = [] ↔ Run State.step Served {} labels s) ∧
    (Run State.step Orderly {} labels s → s.missed = []) := by
  refine ⟨run.history_nil_iff inv_start rfl (fun inv stepped => (step_missed inv stepped).1)
    (fun inv stepped => (step_missed inv stepped).2), fun orderly => ?_⟩
  have all := orderly.invariant (P := fun s => Inv s ∧ Jobs s ∧ Keeps s ∧ s.missed = [])
    ⟨inv_start, ⟨fun _ _ => rfl, nofun, fun _ => Nat.le_refl 0⟩, ⟨nofun, nofun⟩, rfl⟩ ?_
  · exact all.2.2.2
  rintro s t a ⟨inv, jobs, keeps, none⟩ orderly stepped
  obtain ⟨inv', missed⟩ := step_missed inv stepped
  refine ⟨inv', jobs.step stepped, keeps.step jobs orderly stepped, ?_⟩
  rcases missed with ⟨same, -⟩ | ⟨-, unserved⟩
  · exact same.trans none
  · refine absurd (fun id removes => ?_) unserved
    have here := keeps.kept id (orderly id removes).1 (jobs.unremoved stepped removes)
    exact ne_nil_of_mem here

/-- A number is used again while the removal of its first channel is in the queue. -/
def reused : List Action :=
  [.create 7 true, .destroy 0 false, .release 0, .create 7 true, .run, .destroy 1 true]

theorem removals_find_reused : ∃ s, exec State.step {} reused = some s ∧
    s.removed 0 ∧ s.removed 1 ∧ s.missed = [] := by
  obtain ⟨s, done, first, second⟩ :
      ∃ s, exec (guarded State.step Orderly) {} reused = some s ∧
        s.removed 0 ∧ s.removed 1 := exec_any (by decide)
  have orderly := Run.of_guarded done
  refine ⟨s, orderly.exec_eq, first, second, ?_⟩
  exact (removals_find_iff (orderly.relax fun _ => trivial)).2 orderly

/-- A channel that is made and destroyed on another thread before the loop comes to its functions,
and two channels of one number of which the newer one is removed first. -/
theorem removal_misses : (∃ s, exec State.step {}
      [.create 7 false, .destroy 0 false, .release 0, .run, .run] = some s ∧ s.missed = [0]) ∧
    ∃ s, exec State.step {}
      [.create 7 true, .create 7 true, .destroy 1 true, .destroy 0 true] = some s ∧
        s.missed = [0] :=
  ⟨exec_any (by decide), exec_any (by decide)⟩

end Nitrocoro.Io.Registration
