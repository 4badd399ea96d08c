import Nitrocoro.Core.Awaiters

/-! The awaiters of a `Future` or a `SharedFuture` go past its list of waiters once. What a step
does to the protocol of the list is its events. -/

namespace Nitrocoro.Future
open LockFreeList Awaiters Function Transition
variable {A P T E : Type} [DecidableEq A] [DecidableEq P]
variable {s t : State A P T E} {o : OneShot.State A P}

def Follows (o o' : OneShot.State A P)
    (events : List (OneShot.Event A P)) : Prop :=
  (∃ labels, Run OneShot.State.step free o labels o') ∧
    o'.history = o.history ++ events

def events (s : State A P T E) : Action A P T E → List (OneShot.Event A P)
  | .set p =>
    match s.setter p with
    | .close _ => if s.waiters = .closed then [.lost p] else [.won p]
    | .resumeAll (some node) => [.woken node]
    | _ => []
  | .destroy p => if s.waiters = .closed then [.lost p] else []
  | .advance a _ => passes s.waiters (s.awaiter a) a
  | _ => []

def SetterAlike : SetterPC A T E → OneShot.Closer A → Prop
  | .idle, pc => pc = .idle
  | .close _, pc => pc = .idle
  | .store _ top, pc => pc = .walk top
  | .resumeAll node, pc => pc = .walk node
  | .returned, pc => pc = .finished ∨ pc = .lost
  | .threw, pc => pc = .lost

structure Runs (s : State A P T E) (o : OneShot.State A P) : Prop where
  awaits : Awaits s.waiters s.next s.awaiter o
  setter : ∀ p, SetterAlike (s.setter p) (o.closer p)

section
omit [DecidableEq A]
variable {setter : P → SetterPC A T E} {closer : P → OneShot.Closer A}

theorem setter_update (alike : ∀ p, SetterAlike (setter p) (closer p)) (here : SetterAlike pc at_)
    (p q : P) : SetterAlike (update setter p pc q) (update closer p at_ q) := by
  by_cases same : q = p
  · subst same
    simpa using here
  · simpa [same] using alike q

theorem setter_stay (alike : ∀ p, SetterAlike (setter p) (closer p))
    (here : SetterAlike pc (closer p)) (q : P) : SetterAlike (update setter p pc q) (closer q) := by
  by_cases same : q = p
  · subst same
    simpa using here
  · simpa [same] using alike q

end

omit [DecidableEq P] in
theorem pushSaw_protocol (s : State A P T E) (a : A) (head : Head A) :
    (s.pushSaw a head).waiters = s.waiters ∧ (s.pushSaw a head).next = s.next ∧
      (s.pushSaw a head).awaiter = update s.awaiter a (saw head) ∧
      (s.pushSaw a head).setter = s.setter := by
  cases head <;> exact ⟨rfl, rfl, rfl, rfl⟩

omit [DecidableEq P] in
theorem advance_protocol (took : Future.advance s a spurious = some t) :
    Awaiters.advance s.waiters s.next s.awaiter a spurious = some (t.waiters, t.next, t.awaiter) ∧
      t.setter = s.setter := by
  unfold Future.advance at took
  unfold Awaiters.advance
  cases at_ : s.awaiter a with
  | awaitReady =>
    simp only [at_] at took ⊢
    cases head : s.waiters with
    | closed =>
      rw [head] at took
      cases took
      exact ⟨by simp [State.reach, State.goto, head], rfl⟩
    | list cur =>
      rw [head] at took
      cases took
      exact ⟨by simp [State.goto, head], rfl⟩
  | load =>
    simp only [at_] at took ⊢
    obtain ⟨waiters, next, awaiter, setter⟩ := pushSaw_protocol s a s.waiters
    cases took
    exact ⟨by rw [waiters, next, awaiter], setter⟩
  | attempt cur =>
    simp only [at_] at took ⊢
    split at took
    · rename_i guard
      cases took
      rw [if_pos guard]
      exact ⟨rfl, rfl⟩
    rename_i guard
    rw [if_neg guard]
    obtain ⟨waiters, next, awaiter, setter⟩ :=
      pushSaw_protocol { s with next := update s.next a cur } a s.waiters
    cases took
    exact ⟨by rw [waiters, next, awaiter], setter⟩
  | _ => simp [at_] at took

namespace Runs

theorem quietly (runs : Runs s o) (setter : t.setter = s.setter)
    (moved : ∃ o', Quietly o o' log ∧ Awaits t.waiters t.next t.awaiter o') :
    ∃ o', Follows o o' log ∧ Runs t o' := by
  obtain ⟨o', quiet, awaits⟩ := moved
  refine ⟨o', ⟨quiet.run, quiet.history⟩, awaits, fun p => ?_⟩
  rw [setter, quiet.closer]
  exact runs.setter p

omit [DecidableEq A] in
theorem stays (runs : Runs s o) (alike : SetterAlike pc (o.closer p)) : Runs (s.setGoto p pc) o :=
  ⟨⟨runs.awaits.head, runs.awaits.next, runs.awaits.alike⟩, setter_stay runs.setter alike⟩

omit [DecidableEq A] [DecidableEq P] in
theorem closer (runs : Runs s o) (at_ : s.setter p = pc) : SetterAlike pc (o.closer p) :=
  at_ ▸ runs.setter p

theorem step (runs : Runs s o) (took : Future.step s label = some t) :
    ∃ o', Follows o o' (events s label) ∧ Runs t o' := by
  have still : ∀ {log : List (OneShot.Event A P)}, log = [] → Follows o o log := by
    rintro _ rfl
    exact ⟨⟨[], .refl⟩, (List.append_nil _).symm⟩
  -- one step of the protocol, with its event
  have moves : ∀ {label o' log}, OneShot.State.step o label = some o' →
      o'.history = o.history ++ log → Follows o o' log :=
    fun took history => ⟨⟨_, .next .refl trivial took⟩, history⟩
  have head := runs.awaits.head
  cases effect_of_step took with
  | call idle =>
    have alike := runs.closer idle
    exact ⟨o, still rfl, runs.stays alike⟩
  | @destroyClosed p idle closed =>
    rw [closed] at head
    have lost : o.step (.observe p) = some ((o.setCloser p .lost).log (.lost p)) := by
      rw [OneShot.State.step, if_pos ⟨runs.closer idle, head⟩]
    refine ⟨_, moves lost (by rw [events, if_pos closed]; rfl), ?_, setter_update runs.setter ?_ _⟩
    · exact ⟨runs.awaits.head, runs.awaits.next, runs.awaits.alike⟩
    · exact Or.inr rfl
  | destroyOpen idle opened =>
    have alike := runs.closer idle
    exact ⟨o, still (by rw [events, opened]; rfl), runs.stays alike⟩
  | lost at_ closed =>
    rw [closed] at head
    have lost := OneShot.State.step_close_lost (runs.closer at_) head
    refine ⟨_, moves lost (by simp only [events, at_, if_pos closed]; rfl), ?_,
      setter_update runs.setter (by rfl) _⟩
    exact ⟨runs.awaits.head, runs.awaits.next, runs.awaits.alike⟩
  | wonVoid at_ opened | won at_ opened =>
    rw [opened] at head
    have won := OneShot.State.step_close_won (runs.closer at_) head
    refine ⟨_, moves won (by simp only [events, at_, opened]; rfl), ?_,
      setter_update runs.setter (by rfl) _⟩
    exact ⟨rfl, runs.awaits.next, runs.awaits.alike⟩
  | store at_ =>
    have alike := runs.closer at_
    refine ⟨o, still (by simp only [events, at_]), ?_, setter_stay runs.setter alike⟩
    exact ⟨runs.awaits.head, runs.awaits.next, runs.awaits.alike⟩
  | finished at_ =>
    have finished := OneShot.State.step_walk_finished (runs.closer at_)
    refine ⟨_, moves finished (by simp only [events, at_]; exact (List.append_nil _).symm), ?_,
      setter_update runs.setter (by exact Or.inl rfl) _⟩
    exact ⟨runs.awaits.head, runs.awaits.next, runs.awaits.alike⟩
  | @woken p node at_ =>
    have woken := OneShot.State.step_walk_woken (runs.closer at_)
    have awaits : Awaits s.waiters s.next (update s.awaiter node .scheduled)
        (o.setPusher node .woken) := runs.awaits.update (by rfl)
    refine ⟨_, moves woken (by simp only [events, at_]; rfl), ?_, setter_update runs.setter ?_ p⟩
    · exact { awaits with }
    · rw [runs.awaits.next]
      rfl
  | await idle => exact runs.quietly rfl (runs.awaits.begin idle)
  | @resume a scheduled =>
    have alike := runs.awaits.alike a
    rw [scheduled] at alike
    exact runs.quietly rfl ⟨o, .refl, runs.awaits.stay (.inl alike)⟩
  | ready | unready | load | pushed | retry =>
    obtain ⟨same, setter⟩ := advance_protocol took
    exact runs.quietly setter (runs.awaits.advance same)

end Runs

omit [DecidableEq A] [DecidableEq P] in
theorem runs_start : Runs ({} : State A P T E) {} :=
  ⟨⟨rfl, rfl, fun _ => rfl⟩, fun _ => rfl⟩

theorem protocol (run : Reaches free labels s) :
    ∃ o, OneShot.Inv o ∧ Runs s o ∧ o.history = collect step events {} labels := by
  refine run.invariant_collect
    (P := fun s history => ∃ o, OneShot.Inv o ∧ Runs s o ∧ o.history = history)
    ⟨{}, .start, runs_start, rfl⟩ ?_
  rintro s t label _ ⟨o, inv, runs, rfl⟩ took
  obtain ⟨o', ⟨⟨labels', run'⟩, history⟩, runs'⟩ := runs.step took
  have inv' := run'.invariant inv fun inv _ took => inv.step took
  exact ⟨o', inv', runs', history⟩

def SetterPC.decided : SetterPC A T E → Bool
  | .idle => false
  | .close _ => false
  | _ => true

omit [DecidableEq A] in
theorem SetterAlike.decided_iff {pc : SetterPC A T E} (alike : SetterAlike pc closer) :
    pc.decided ↔ closer ≠ .idle := by
  cases pc with
  | returned => rcases alike with rfl | rfl <;> simp [SetterPC.decided]
  | _ =>
    rw [show closer = _ from alike]
    simp [SetterPC.decided]

theorem closed_of_decided (run : Reaches free labels s)
    (decided : (s.setter p).decided) : s.waiters = .closed := by
  obtain ⟨o, inv, runs, -⟩ := protocol run
  obtain ⟨nodes, -, -, holds⟩ := inv.nodes
  cases head : s.waiters with
  | closed => rfl
  | list last =>
    unfold OneShot.Holds at holds
    rw [runs.awaits.head, head] at holds
    exact absurd (holds.2 p) ((runs.setter p).decided_iff.mp decided)

theorem closed_step (closed : s.waiters = .closed)
    (took : step s label = some t) : t.waiters = .closed := by
  cases effect_of_step took with
  | wonVoid | won => rfl
  | load | retry => exact (pushSaw_protocol ..).1.trans closed
  | pushed _ same => cases closed.symm.trans same
  | _ => exact closed

theorem resumeAll_ends (chain : LinkedList.Chain s.next node nodes)
    (at_ : s.setter p = .resumeAll node) : ∃ n t, exec step s (List.replicate n (.set p)) = some t ∧
      ∀ a, t.awaiter a = .suspended → s.awaiter a = .suspended ∧ a ∉ nodes := by
  let walks (s : State A P T E) (node : Option A) : Prop := s.setter p = .resumeAll node
  have wakes : ∀ s a, walks s (some a) → ∃ t, step s (.set p) = some t ∧ walks t (s.next a) ∧
      t.next = s.next ∧ t.awaiter = update s.awaiter a .scheduled := by
    intro s a at_
    refine ⟨(s.goto a .scheduled).setGoto p (.resumeAll (s.next a)), ?_, update_self .., rfl, rfl⟩
    simp only [step, set, show s.setter p = .resumeAll (some a) from at_]
  exact Awaiters.walk_ends wakes chain at_

theorem settles (run : Reaches free labels s) :
    OneShot.ExactlyOnce (collect step events {} labels) (fun a => past (s.awaiter a))
      (fun p => (s.setter p).decided) (s.waiters = .closed) ∧
    (∀ p a, s.setter p = .resumeAll (some a) → s.awaiter a = .suspended) ∧
    (s.waiters = .closed → ∃ p n t, exec step s (List.replicate n (.set p)) = some t ∧
        ∀ a, t.awaiter a ≠ .suspended) := by
  obtain ⟨o, inv, runs, history⟩ := protocol run
  rw [← history]
  have closed : s.waiters = .closed ↔ o.head = none := by
    rw [runs.awaits.head]
    cases s.waiters <;> simp [top]
  refine ⟨inv.exactlyOnce (fun a => (runs.awaits.alike a).past_iff)
    (fun p => (runs.setter p).decided_iff) (by simpa using closed), fun p a at_ => ?_, fun shut => ?_⟩
  · have alike := runs.setter p
    rw [at_] at alike
    exact (runs.awaits.alike a).suspended_iff.mpr (inv.waits alike)
  obtain ⟨nodes, -, waiting, holds⟩ := inv.nodes
  have suspended : ∀ a, s.awaiter a = .suspended ↔ a ∈ nodes := fun a =>
    (runs.awaits.alike a).suspended_iff.trans (waiting a)
  unfold OneShot.Holds at holds
  rw [closed.mp shut] at holds
  obtain ⟨p, ⟨-, rfl⟩ | ⟨node, walking, chain⟩⟩ := holds
  · exact ⟨p, 0, s, rfl, fun a at_ => by simpa using (suspended a).mp at_⟩
  rw [runs.awaits.next] at chain
  have alike := runs.setter p
  rw [walking] at alike
  cases at_ : s.setter p with
  | store result top =>
    rw [at_] at alike
    cases (show OneShot.Closer.walk node = .walk top from alike)
    let stored := { s with stored := some result }.setGoto p (.resumeAll node)
    have took : step s (.set p) = some stored := by
      simp only [step, set, at_]
      rfl
    obtain ⟨n, t, done, left⟩ := resumeAll_ends (s := stored) chain (update_self ..)
    refine ⟨p, n + 1, t, ?_, fun a at_ => (left a at_).2 ((suspended a).mp (left a at_).1)⟩
    rw [List.replicate_succ, exec, took]
    exact done
  | resumeAll node' =>
    rw [at_] at alike
    cases (show OneShot.Closer.walk node = .walk node' from alike)
    obtain ⟨n, t, done, left⟩ := resumeAll_ends chain at_
    exact ⟨p, n, t, done, fun a at_ => (left a at_).2 ((suspended a).mp (left a at_).1)⟩
  | returned => simp [at_, SetterAlike] at alike
  | _ => rw [at_] at alike; cases alike

end Nitrocoro.Future
