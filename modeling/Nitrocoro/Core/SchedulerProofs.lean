import Nitrocoro.Core.Scheduler

/-! The loop does not block while work is in its queues, unless a wakeup is signalled or still to
come. Both queues were found empty before `epoll_wait`, and whoever pushed since then is another
thread, whose push is followed by its wakeup. -/
namespace Nitrocoro.Scheduler
open Function State
variable {Id H : Type} {s t : State Id H}

namespace State

/-- The push of some entry of the queue is finished, and it was not taken yet. -/
def Waiting (s : State Id H) : Queue → Prop
  | .ready => ∃ node, s.readyQueue.Finished node
  | .timers => ∃ node, s.pendingTimers.Finished node

def Wakes (s : State Id H) : Prop := 0 < s.wakeupFd ∨ ∃ i, s.Waking i

/-- `epoll_wait` ends when a timer is due. A timer that is 2 ^ 31 milliseconds ahead does not fit
into its timeout. -/
def Bounds (s : State Id H) (now : Nat) (ms : Int) : Prop :=
  ∀ timer ∈ s.timers, timer.due < now + 2 ^ 31 * 1000000 →
    0 ≤ ms ∧ now + ms * 1000000 ≤ max now timer.due

end State

/-- The places of the loop behind the pop that found the queue empty. -/
def LoopPC.drained : LoopPC → Queue → Bool
  | .takeTimers, .ready => true
  | .timeout, _ => true
  | .wait .., _ => true
  | _, _ => false

def LoopPC.pushes : LoopPC → Bool
  | .callback _ => true
  | .due _ => true
  | _ => false

theorem LoopPC.full_of_pushes {pc : LoopPC} (pushes : pc.pushes) (queue : Queue) :
    pc.drained queue = false := by
  cases pc with
  | callback => rfl
  | due => rfl
  | _ => cases pushes

structure Queues (s : State Id H) : Prop where
  ready : MpscQueue.Inv s.readyQueue
  timers : MpscQueue.Inv s.pendingTimers

structure Inv (s : State Id H) : Prop where
  queues : Queues s
  foreign : ∀ i queue, s.pushPC (some i) queue ≠ .idle → s.thread i = .pushing queue
  own : ∀ queue, s.pushPC none queue ≠ .idle → s.loop.pushes
  drained : ∀ queue, s.loop.drained queue → s.Waiting queue → s.Wakes
  sorted : s.timers.Pairwise (·.due ≤ ·.due)
  timeout : ∀ now ms, s.loop = .wait now ms → s.Bounds now ms

structure Frame (s t : State Id H) : Prop where
  loop : t.loop = s.loop
  thread : t.thread = s.thread
  wakeupFd : t.wakeupFd = s.wakeupFd
  timers : t.timers = s.timers

section Push
variable [DecidableEq Id] {i : Option Id} {queue : Queue} {call : Call H}

theorem beginPush_spec (begun : s.beginPush i call = some t) :
    Frame s t ∧ (Queues s → Queues t) ∧ s.pushPC i call.queue = .idle ∧
      (∀ j queue, t.pushPC j queue = s.pushPC j queue ∨ j = i ∧ queue = call.queue) ∧
      ∀ queue, t.Waiting queue → s.Waiting queue := by
  cases call with
  | schedule func =>
    obtain ⟨q, pushed, rfl⟩ := Option.map_eq_some_iff.mp begun
    obtain ⟨idle, push, finished⟩ := MpscQueue.step_push pushed
    refine ⟨⟨rfl, rfl, rfl, rfl⟩, fun queues => ⟨queues.ready.step pushed, queues.timers⟩, idle,
      fun j queue => ?_, fun queue waiting => ?_⟩
    · cases queue with
      | timers => exact .inl rfl
      | ready =>
        by_cases same : j = i
        · exact .inr ⟨same, rfl⟩
        · exact .inl ((congrFun push j).trans (update_of_ne same _ _))
    · cases queue with
      | timers => exact waiting
      | ready => exact waiting.imp fun node => (finished node).mp
  | scheduleAt timer =>
    obtain ⟨q, pushed, rfl⟩ := Option.map_eq_some_iff.mp begun
    obtain ⟨idle, push, finished⟩ := MpscQueue.step_push pushed
    refine ⟨⟨rfl, rfl, rfl, rfl⟩, fun queues => ⟨queues.ready, queues.timers.step pushed⟩, idle,
      fun j queue => ?_, fun queue waiting => ?_⟩
    · cases queue with
      | ready => exact .inl rfl
      | timers =>
        by_cases same : j = i
        · exact .inr ⟨same, rfl⟩
        · exact .inl ((congrFun push j).trans (update_of_ne same _ _))
    · cases queue with
      | ready => exact waiting
      | timers => exact waiting.imp fun node => (finished node).mp

theorem advancePush_spec (advanced : s.advancePush i queue = some t) :
    Frame s t ∧ (Queues s → Queues t) ∧ s.pushPC i queue ≠ .idle ∧
      ((∃ prev node, t.pushPC i queue = .link prev node) ∨ t.pushPC i queue = .idle) ∧
      ∀ j queue', t.pushPC j queue' = s.pushPC j queue' ∨ j = i ∧ queue' = queue := by
  cases queue with
  | ready =>
    obtain ⟨q, pushed, rfl⟩ := Option.map_eq_some_iff.mp advanced
    refine ⟨⟨rfl, rfl, rfl, rfl⟩, fun queues => ⟨queues.ready.step (a := .advance i) pushed,
      queues.timers⟩, MpscQueue.advance_busy pushed, ?_, fun j queue' => ?_⟩
    · exact MpscQueue.advance_self pushed
    cases queue' with
    | timers => exact .inl rfl
    | ready =>
      by_cases same : j = i
      · exact .inr ⟨same, rfl⟩
      · exact .inl (MpscQueue.advance_other pushed same)
  | timers =>
    obtain ⟨q, pushed, rfl⟩ := Option.map_eq_some_iff.mp advanced
    refine ⟨⟨rfl, rfl, rfl, rfl⟩, fun queues => ⟨queues.ready,
      queues.timers.step (a := .advance i) pushed⟩, MpscQueue.advance_busy pushed, ?_,
      fun j queue' => ?_⟩
    · exact MpscQueue.advance_self pushed
    cases queue' with
    | ready => exact .inl rfl
    | timers =>
      by_cases same : j = i
      · exact .inr ⟨same, rfl⟩
      · exact .inl (MpscQueue.advance_other pushed same)

end Push

theorem State.Waking.mono (thread : t.thread i = s.thread i)
    (push : ∀ queue, t.pushPC (some i) queue = s.pushPC (some i) queue) (waking : s.Waking i) :
    t.Waking i := by
  rcases waking with wakeup | ⟨queue, prev, node, pushing, linking⟩
  · exact .inl (thread.trans wakeup)
  · exact .inr ⟨queue, prev, node, thread.trans pushing, (push queue).trans linking⟩

theorem State.Wakes.mono (wakes : s.Wakes) (wakeupFd : t.wakeupFd = s.wakeupFd)
    (thread : t.thread = s.thread)
    (push : ∀ i queue, t.pushPC (some i) queue = s.pushPC (some i) queue) : t.Wakes := by
  rcases wakes with signalled | ⟨i, waking⟩
  · exact .inl (wakeupFd ▸ signalled)
  · exact .inr ⟨i, waking.mono (congrFun thread i) (push i)⟩

theorem State.Bounds.congr (bounds : s.Bounds now ms) (timers : t.timers = s.timers) :
    t.Bounds now ms := by
  intro timer mem
  exact bounds timer (timers ▸ mem)

theorem inv_start : Inv ({} : State Id H) where
  queues := ⟨MpscQueue.inv_start, MpscQueue.inv_start⟩
  foreign i queue busy := by cases queue <;> exact absurd rfl busy
  own queue busy := by cases queue <;> exact absurd rfl busy
  drained queue _ waiting := by
    cases queue <;> obtain ⟨node, mem, -⟩ := waiting <;> cases mem
  sorted := List.Pairwise.nil
  timeout now ms at_ := by cases at_

section Goto
variable [DecidableEq Id]

@[simp] theorem State.goto_pushPC {s : State Id H} :
    (s.goto i pc).pushPC j queue = s.pushPC j queue := by
  cases queue <;> rfl

@[simp] theorem State.goto_waiting {s : State Id H} :
    (s.goto i pc).Waiting queue ↔ s.Waiting queue := by
  cases queue <;> rfl

theorem Queues.goto (queues : Queues s) : Queues (s.goto i pc) := { queues with }

end Goto

theorem quiet_of_ownIdle (idle : s.ownIdle) (queue : Queue) : s.pushPC none queue = .idle := by
  have both := of_decide_eq_true idle
  cases queue
  · exact both.1
  · exact both.2

theorem insert_sorted (timer : Timer H) {timers : List (Timer H)}
    (sorted : timers.Pairwise (·.due ≤ ·.due)) :
    (insert timer timers).Pairwise (·.due ≤ ·.due) := by
  induction timers with
  | nil => exact List.pairwise_singleton ..
  | cons first timers ih =>
    obtain ⟨least, rest⟩ := List.pairwise_cons.mp sorted
    unfold State.insert at ih ⊢
    rw [List.orderedInsert_cons]
    split
    · rename_i before
      refine List.pairwise_cons.mpr ⟨?_, sorted⟩
      intro other mem
      rcases List.mem_cons.mp mem with rfl | mem
      · exact before
      · exact Nat.le_trans before (least other mem)
    rename_i behind
    refine List.pairwise_cons.mpr ⟨?_, ih rest⟩
    intro other mem
    rcases (List.mem_orderedInsert _).mp mem with rfl | mem
    · exact Nat.le_of_not_le behind
    · exact least other mem

namespace Inv
section Threads
open State
variable [DecidableEq Id]

theorem call (inv : Inv s) (took : s.step (.call i call') = some t) : Inv t := by
  simp only [step] at took
  split at took
  · rename_i idle
    obtain ⟨u, begun, rfl⟩ := Option.map_eq_some_iff.mp took
    obtain ⟨frame, queues, -, others, waiting⟩ := beginPush_spec begun
    have thread : ∀ j, j ≠ i → (u.goto i (.pushing call'.queue)).thread j = s.thread j :=
      fun j other => (update_of_ne other _ _).trans (congrFun frame.thread j)
    have push : ∀ j, j ≠ i → ∀ queue, u.pushPC (some j) queue = s.pushPC (some j) queue :=
      fun j other queue => (others (some j) queue).resolve_right
        fun same => other (Option.some.inj same.1)
    refine ⟨(queues inv.queues).goto, ?_, ?_, ?_, frame.timers ▸ inv.sorted, ?_⟩
    · intro j queue busy
      rw [goto_pushPC] at busy
      by_cases same : j = i
      · subst same
        have here : queue = call'.queue := by
          rcases others (some j) queue with old | ⟨-, here⟩
          · rw [old] at busy
            cases idle.symm.trans (inv.foreign j queue busy)
          · exact here
        rw [here]
        exact update_self ..
      · rw [push j same] at busy
        exact (thread j same).trans (inv.foreign j queue busy)
    · intro queue busy
      rw [goto_pushPC, (others none queue).resolve_right fun same => nomatch same.1] at busy
      exact frame.loop ▸ inv.own queue busy
    · intro queue drained found
      have wakes := inv.drained queue (frame.loop ▸ drained) (waiting queue (goto_waiting.mp found))
      rcases wakes with signalled | ⟨j, waking⟩
      · exact .inl (frame.wakeupFd ▸ signalled)
      have other : j ≠ i := by
        rintro rfl
        rcases waking with wakeup | ⟨_, _, _, pushing, -⟩
        · cases idle.symm.trans wakeup
        · cases idle.symm.trans pushing
      refine .inr ⟨j, waking.mono (thread j other) fun queue => ?_⟩
      rw [goto_pushPC, push j other]
    · intro now ms at_
      exact (inv.timeout now ms (frame.loop ▸ at_)).congr frame.timers
  · cases took

theorem advance (inv : Inv s) (took : s.advance i = some t) : Inv t ∧ t.Wakes := by
  unfold State.advance at took
  split at took
  · cases took
  · rename_i queue pushing
    obtain ⟨u, advanced, rfl⟩ := Option.map_eq_some_iff.mp took
    obtain ⟨frame, queues, -, self, others⟩ := advancePush_spec advanced
    have own : ∀ queue', u.pushPC none queue' ≠ .idle → u.loop.pushes := fun queue' busy => by
      rw [(others none queue').resolve_right fun same => nomatch same.1] at busy
      exact frame.loop ▸ inv.own queue' busy
    have foreign : ∀ j queue', u.pushPC (some j) queue' ≠ .idle →
        s.thread j = .pushing queue' := fun j queue' busy => by
      rcases others (some j) queue' with old | ⟨same, here⟩
      · exact inv.foreign j queue' (old ▸ busy)
      · cases same
        rw [here]
        exact pushing
    have timeout : ∀ now ms, u.loop = .wait now ms → u.Bounds now ms := fun now ms at_ =>
      (inv.timeout now ms (frame.loop ▸ at_)).congr frame.timers
    rcases self with ⟨prev, node, linking⟩ | finished
    · rw [if_neg (by rw [linking]; exact MpscQueue.PushPC.noConfusion)]
      have thread : u.thread i = .pushing queue := frame.thread ▸ pushing
      have wakes : u.Wakes := .inr ⟨i, .inr ⟨queue, prev, node, thread, linking⟩⟩
      exact ⟨⟨queues inv.queues, fun j queue' busy => frame.thread ▸ foreign j queue' busy, own,
        fun _ _ _ => wakes, frame.timers ▸ inv.sorted, timeout⟩, wakes⟩
    rw [if_pos finished]
    have wakes : (u.goto i .wakeup).Wakes := .inr ⟨i, .inl (update_self ..)⟩
    refine ⟨⟨(queues inv.queues).goto, ?_, ?_, fun _ _ _ => wakes, frame.timers ▸ inv.sorted,
      timeout⟩, wakes⟩
    · intro j queue' busy
      have at_ := foreign j queue' busy
      have other : j ≠ i := by
        rintro rfl
        cases pushing.symm.trans at_
        exact busy finished
      exact (update_of_ne other _ _).trans ((congrFun frame.thread j).trans at_)
    · intro queue' busy
      exact own queue' busy
  · rename_i wakeup
    cases took
    have wakes : ({ s with wakeupFd := s.wakeupFd + 1 }.goto i .idle : State Id H).Wakes :=
      .inl (Nat.succ_pos _)
    refine ⟨⟨⟨inv.queues.ready, inv.queues.timers⟩, ?_, ?_, fun _ _ _ => wakes, inv.sorted,
      inv.timeout⟩, wakes⟩
    · intro j queue busy
      have at_ := inv.foreign j queue (by cases queue <;> exact busy)
      have other : j ≠ i := by
        rintro rfl
        cases wakeup.symm.trans at_
      exact (update_of_ne other _ _).trans at_
    · intro queue busy
      exact inv.own queue (by cases queue <;> exact busy)

omit [DecidableEq Id] in
theorem own_push (inv : Inv s) (pushes : s.loop.pushes) (others : ∀ i queue,
    t.pushPC (some i) queue = s.pushPC (some i) queue) (frame : Frame s t) (queues : Queues t) :
    Inv t := by
  have pushes : t.loop.pushes := frame.loop ▸ pushes
  refine ⟨queues, ?_, fun _ _ => pushes, ?_, frame.timers ▸ inv.sorted, ?_⟩
  · intro i queue busy
    exact frame.thread ▸ inv.foreign i queue (others i queue ▸ busy)
  · intro queue drained
    rw [LoopPC.full_of_pushes pushes] at drained
    cases drained
  · intro now ms at_
    rw [at_] at pushes
    cases pushes

theorem own_begin (inv : Inv s) (pushes : s.loop.pushes)
    (begun : s.beginPush none call' = some t) : Inv t := by
  obtain ⟨frame, queues, -, others, -⟩ := beginPush_spec begun
  exact inv.own_push pushes (fun i queue => (others (some i) queue).resolve_right
    fun same => nomatch same.1) frame (queues inv.queues)

theorem own_advance (inv : Inv s) (advanced : s.advancePush none queue = some t) : Inv t := by
  obtain ⟨frame, queues, busy, -, others⟩ := advancePush_spec advanced
  exact inv.own_push (inv.own queue busy) (fun i queue => (others (some i) queue).resolve_right
    fun same => nomatch same.1) frame (queues inv.queues)

end Threads

theorem quiet (inv : Inv s) (place : s.loop.pushes = false) (queue : Queue) :
    s.pushPC none queue = .idle := by
  by_contra busy
  rw [inv.own queue busy] at place
  cases place

theorem loops (inv : Inv s) (quiet : ∀ queue, s.pushPC none queue = .idle) (queues : Queues t)
    (push : ∀ i queue, t.pushPC i queue = s.pushPC i queue) (thread : t.thread = s.thread)
    (drained : ∀ queue, t.loop.drained queue → t.Waiting queue → t.Wakes)
    (sorted : t.timers.Pairwise (·.due ≤ ·.due))
    (timeout : ∀ now ms, t.loop = .wait now ms → t.Bounds now ms) : Inv t where
  queues
  foreign i queue busy := thread ▸ inv.foreign i queue (push (some i) queue ▸ busy)
  own queue busy := absurd (quiet queue) (push none queue ▸ busy)
  drained
  sorted
  timeout

theorem goes (inv : Inv s) (quiet : ∀ queue, s.pushPC none queue = .idle) (pc : LoopPC)
    (full : ∀ queue, pc.drained queue = false) (wakeupFd : Nat) :
    Inv { s with loop := pc, wakeupFd } := by
  refine inv.loops quiet ⟨inv.queues.ready, inv.queues.timers⟩ ?_ rfl ?_ inv.sorted ?_
  · intro i queue
    cases queue <;> rfl
  · intro queue drained
    cases (full queue).symm.trans drained
  · rintro now ms rfl
    cases full .ready

theorem stalled (inv : Inv s) (place : s.loop.pushes = false) (queue : Queue)
    (unlinked : ∃ i prev node, s.pushPC i queue = .link prev node) : s.Wakes := by
  obtain ⟨i, prev, node, linking⟩ := unlinked
  cases i with
  | none =>
    rw [inv.quiet place queue] at linking
    cases linking
  | some i =>
    have pushing := inv.foreign i queue (by rw [linking]; exact MpscQueue.PushPC.noConfusion)
    exact .inr ⟨i, .inr ⟨queue, prev, node, pushing, linking⟩⟩

theorem popReady (inv : Inv s) (pushes : s.loop.pushes = false)
    (consumed : s.readyQueue.consume = some q) (pc : LoopPC)
    (empty : pc.drained .ready → s.readyQueue.returned = some none)
    (full : pc.drained .timers = false) : Inv { s with readyQueue := q, loop := pc } := by
  refine inv.loops (inv.quiet pushes) ⟨inv.queues.ready.consume consumed, inv.queues.timers⟩ ?_ rfl
    ?_ inv.sorted ?_
  · rintro i (_ | _)
    · exact congrFun (MpscQueue.consume_push consumed) i
    · rfl
  · rintro (_ | _) drained waiting
    · have returned := empty drained
      have kept := MpscQueue.consume_nullopt consumed returned
      subst kept
      obtain ⟨node, finished⟩ := waiting
      refine (inv.stalled pushes .ready ?_).mono rfl rfl ?_
      · exact inv.queues.ready.nullopt_finished returned finished
      · rintro i (_ | _) <;> rfl
    · cases full.symm.trans drained
  · rintro now ms rfl
    cases full

theorem takeReady (inv : Inv s) (place : s.loop = .ready) (took : s.takeReady = some t) :
    Inv t := by
  obtain ⟨q, consumed, same⟩ := Option.map_eq_some_iff.mp took
  have pops := inv.popReady (by rw [place]; rfl) consumed
  cases returned : s.readyQueue.returned with
  | none =>
    rw [returned] at same
    have next := pops .ready nofun rfl
    rw [← place] at next
    exact same ▸ next
  | some result =>
    rw [returned] at same
    cases result with
    | none => exact same ▸ pops .takeTimers (fun _ => returned) rfl
    | some func => exact same ▸ pops (.callback .ready) nofun rfl

theorem popTimer (inv : Inv s) (place : s.loop = .takeTimers)
    (consumed : s.pendingTimers.consume = some q) (pc : LoopPC) (timers : List (Timer H))
    (empty : pc.drained .timers → s.pendingTimers.returned = some none)
    (ready : ∀ now ms, pc ≠ .wait now ms) (sorted : timers.Pairwise (·.due ≤ ·.due)) :
    Inv { s with pendingTimers := q, timers, loop := pc } := by
  have pushes : s.loop.pushes = false := by rw [place]; rfl
  refine inv.loops (inv.quiet pushes) ⟨inv.queues.ready, inv.queues.timers.consume consumed⟩ ?_ rfl
    ?_ sorted fun now ms at_ => absurd at_ (ready now ms)
  · rintro i (_ | _)
    · rfl
    · exact congrFun (MpscQueue.consume_push consumed) i
  have push := MpscQueue.consume_push consumed
  rintro (_ | _) drained waiting
  · have wakes := inv.drained .ready (by rw [place]; rfl) waiting
    refine wakes.mono rfl rfl ?_
    rintro i (_ | _)
    · rfl
    · exact congrFun push _
  have returned := empty drained
  have kept := MpscQueue.consume_nullopt consumed returned
  subst kept
  obtain ⟨node, finished⟩ := waiting
  refine (inv.stalled pushes .timers ?_).mono rfl rfl ?_
  · exact inv.queues.timers.nullopt_finished returned finished
  · rintro i (_ | _) <;> rfl

theorem takeTimer (inv : Inv s) (place : s.loop = .takeTimers)
    (took : s.takeTimer = some t) : Inv t := by
  obtain ⟨q, consumed, same⟩ := Option.map_eq_some_iff.mp took
  have pops := inv.popTimer place consumed
  cases returned : s.pendingTimers.returned with
  | none =>
    rw [returned] at same
    have next := pops .takeTimers s.timers nofun nofun inv.sorted
    rw [← place] at next
    exact same ▸ next
  | some result =>
    rw [returned] at same
    cases result with
    | none => exact same ▸ pops .timeout s.timers (fun _ => returned) nofun inv.sorted
    | some timer =>
      have next := pops .takeTimers (insert timer s.timers) nofun nofun
        (insert_sorted timer inv.sorted)
      rw [← place] at next
      exact same ▸ next

end Inv

theorem toInt_of_lt (fits : ms < 2 ^ 31) : toInt ms = ms := by
  refine Int.bmod_eq_of_le ?_ ?_ <;> omega

theorem bounds_nextTimeout (sorted : s.timers.Pairwise (·.due ≤ ·.due)) (now : Nat) :
    s.Bounds now (toInt (nextTimeout s.timers now)) := by
  intro timer mem near
  cases timers : s.timers with
  | nil =>
    rw [timers] at mem
    cases mem
  | cons next later =>
    rw [timers] at mem sorted
    have first : next.due ≤ timer.due := by
      rcases List.mem_cons.mp mem with rfl | mem
      · exact Nat.le_refl _
      · exact (List.pairwise_cons.mp sorted).1 timer mem
    simp only [nextTimeout]
    split
    · rw [toInt_of_lt (by omega)]
      omega
    · rw [toInt_of_lt (by omega)]
      omega

namespace Inv
variable [DecidableEq Id]

theorem tick (inv : Inv s) (took : s.tick = some t) : Inv t := by
  unfold State.tick at took
  split at took
  · exact inv.takeTimer ‹_› took
  · rename_i place
    cases took
    exact inv.goes (inv.quiet (by rw [place]; rfl)) .timers (fun _ => rfl) s.wakeupFd
  · rename_i left place
    cases took
    exact inv.goes (inv.quiet (by rw [place]; rfl)) (.events left) (fun _ => rfl) 0
  · rename_i left place
    cases took
    exact inv.goes (inv.quiet (by rw [place]; rfl)) (.callback (.events left)) (fun _ => rfl) _
  · split at took
    · rename_i place idle at_
      cases took
      refine inv.goes (quiet_of_ownIdle at_) (back _) (fun _ => ?_) _
      cases place <;> rfl
    · cases took
  · rename_i now place
    split at took
    · rename_i idle
      have done := inv.goes (quiet_of_ownIdle idle) .ready (fun _ => rfl) s.wakeupFd
      split at took
      · rename_i timer timers more
        split at took
        · have left : Inv { s with timers } := by
            refine inv.loops (quiet_of_ownIdle idle) ⟨inv.queues.ready, inv.queues.timers⟩ ?_ rfl
              ?_ ?_ ?_
            · rintro i (_ | _) <;> rfl
            · intro queue drained
              rw [show ({ s with timers } : State Id H).loop = .due now from place] at drained
              cases drained
            · have sorted := inv.sorted
              rw [more] at sorted
              exact (List.pairwise_cons.mp sorted).2
            · intro now ms at_
              cases place.symm.trans at_
          exact left.own_begin (by rw [place]; rfl) took
        · cases took
          exact done
      · cases took
        exact done
    · cases took
  · exact inv.takeReady ‹_› took
  all_goals cases took

theorem step (inv : Inv s) (took : s.step a = some t) : Inv t := by
  cases a with
  | call i call' => exact inv.call took
  | advance i => exact (inv.advance took).1
  | own call' =>
    simp only [State.step] at took
    split at took
    · rename_i place
      split at took
      · exact inv.own_begin (by rw [place]; rfl) took
      · cases took
    · cases took
  | ownAdvance queue => exact inv.own_advance took
  | tick => exact inv.tick took
  | clock now =>
    simp only [State.step] at took
    split at took
    · rename_i place
      cases took
      refine inv.loops (inv.quiet (by rw [place]; rfl)) ⟨inv.queues.ready, inv.queues.timers⟩ ?_
        rfl ?_ inv.sorted ?_
      · rintro i (_ | _) <;> rfl
      · intro queue _ waiting
        have found : s.Waiting queue := by cases queue <;> exact waiting
        have wakes := inv.drained queue (by rw [place]; cases queue <;> rfl) found
        apply wakes.mono rfl rfl
        rintro i (_ | _) <;> rfl
      · rintro now' ms at_
        cases at_
        exact bounds_nextTimeout inv.sorted now
    · rename_i place
      cases took
      refine inv.goes (inv.quiet (by rw [place]; rfl)) _ (fun queue => ?_) s.wakeupFd
      split <;> rfl
    · cases took
  | wakes events =>
    simp only [State.step] at took
    split at took
    · rename_i place
      split at took
      · cases took
      · cases took
        exact inv.goes (inv.quiet (by rw [place]; rfl)) (.events events) (fun _ => rfl) s.wakeupFd
    · cases took

end Inv

/-- While the loop is blocked in `epoll_wait`, each finished push that it has not taken comes with
a signal at the eventfd or with a thread that will send one, and the timeout ends when the next
of its timers is due, if that is less than 2 ^ 31 milliseconds ahead. -/
theorem no_lost_wakeup [DecidableEq Id] {labels : List (Action Id H)} (run : Reaches labels s)
    (blocked : s.loop = .wait now ms) :
    ((∃ node, s.readyQueue.Finished node) ∨ (∃ node, s.pendingTimers.Finished node) →
      0 < s.wakeupFd ∨ ∃ i, s.Waking i) ∧ s.Bounds now ms := by
  have inv : Inv s := run.invariant inv_start fun inv _ stepped => inv.step stepped
  refine ⟨?_, inv.timeout now ms blocked⟩
  rintro (waiting | waiting)
  · exact inv.drained .ready (by rw [blocked]; rfl) waiting
  · exact inv.drained .timers (by rw [blocked]; rfl) waiting

/-- Two threads push. The second is done before the first has linked its node, so that the loop
finds the queue empty behind its wakeup and blocks again; the wakeup of the first is to come. -/
def hiddenBehindStalled : List (Action Bool Nat) :=
  [.tick, .tick, .clock 0, .call false (.schedule 7), .advance false,
    .call true (.schedule 8), .advance true, .advance true, .advance true,
    .wakes [.wakeupFd], .tick, .tick, .clock 1, .tick, .tick, .tick, .tick, .clock 2]

theorem no_lost_wakeup_stalled : ∃ s, Transition.exec step {} hiddenBehindStalled = some s ∧
      s.loop = .wait 2 kDefaultTimeoutMs ∧ s.readyQueue.Finished 2 ∧
      (0 < s.wakeupFd ∨ ∃ i, s.Waking i) := by
  have ends : ∃ s, Transition.exec step {} hiddenBehindStalled = some s ∧
      s.loop = .wait 2 kDefaultTimeoutMs ∧ s.readyQueue.waiting = [1, 2] ∧
      s.readyQueue.push none = .idle ∧ s.readyQueue.push (some false) = .link 0 1 ∧
      s.readyQueue.push (some true) = .idle := Transition.exec_any (by decide)
  obtain ⟨s, done, blocked, waiting, own, first, second⟩ := ends
  have finished : s.readyQueue.Finished 2 := by
    refine ⟨by rw [waiting]; decide, ?_⟩
    rintro ⟨_ | _ | _, prev, linking⟩
    · cases own.symm.trans linking
    · cases first.symm.trans linking
    · cases second.symm.trans linking
  exact ⟨s, done, blocked, finished, (no_lost_wakeup (.of_exec done) blocked).1 (.inl ⟨2, finished⟩)⟩

end Nitrocoro.Scheduler
