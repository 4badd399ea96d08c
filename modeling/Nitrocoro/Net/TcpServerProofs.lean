import Nitrocoro.Net.TcpServer

/-! `TcpServer::stop()`: when it returns with no connection left that is still served. -/
namespace Nitrocoro.Net.TcpServer
open Io Function Transition Channel LoopPC
open List hiding after

def LoopPC.running : LoopPC → Bool
  | .entering | .accepting => true
  | _ => false

def LoopPC.queued : LoopPC → Nat
  | .switching | .scheduled => 1
  | _ => 0

def LoopPC.finished : LoopPC → Bool
  | .ended | .failed => true
  | _ => false

def LoopPC.opened : LoopPC → Bool
  | .accepting | .suspended | .scheduled | .ended => true
  | _ => false

def StopPC.queued : StopPC → Nat
  | .switching | .scheduled => 1
  | _ => 0

def StopPC.begun : StopPC → Bool
  | .waiting | .scheduled | .returned => true
  | _ => false

def StopPC.resumed : StopPC → Bool
  | .scheduled | .returned => true
  | _ => false

theorem LoopPC.of_queued {pc : LoopPC} (queued : n + 1 = pc.queued) :
    n = 0 ∧ (pc = .switching ∨ pc = .scheduled) := by
  cases pc <;> simp_all [LoopPC.queued]

theorem StopPC.of_queued {pc : StopPC} (queued : n + 1 = pc.queued) :
    n = 0 ∧ (pc = .switching ∨ pc = .scheduled) := by
  cases pc <;> simp_all [StopPC.queued]

structure Stopping (s : Control) : Prop where
  begun : s.stop.begun → s.stopped
  stops : s.queue.count .stop = s.stop.queued
  waiting : s.stop = .waiting → s.done = false
  resumed : s.stop.resumed → s.done

structure Sound (s : Control) : Prop extends Stopping s where
  running : s.loop.running → s.current = some .loop
  entering : s.stop = .entering → s.current = some .stop
  opened : s.listenChannel.isSome = s.loop.opened
  slot : ∀ ch, s.listenChannel = some ch → (ch.readableWaiter.isSome ↔ s.loop = .suspended)
  writer : ∀ ch, s.listenChannel = some ch → ch.writableWaiter = none
  uncanceled : ∀ ch, s.listenChannel = some ch → s.stop.begun = false → ch.readCanceled = false
  done : s.done = s.loop.finished
  stopped : s.stopped → s.stop.begun ∨ s.loop = .failed
  loops : s.queue.count .loop = s.loop.queued

structure Ready (s : Control) (ch : Channel Unit) : Prop extends Stopping s where
  entering : s.stop ≠ .entering
  slot : ch.readableWaiter = none
  writer : ch.writableWaiter = none
  uncanceled : s.stop.begun = false → ch.readCanceled = false
  undone : s.done = false
  stopped : s.stopped → s.stop.begun
  loops : s.queue.count .loop = 0

/-! `stopPromise_.set_value()` schedules `stop()`, and changes nothing else. -/
section
variable {s : Control}

structure Promised (s t : Control) : Prop where
  loop : t.loop = s.loop
  channel : t.listenChannel = s.listenChannel
  current : t.current = s.current
  stopped : t.stopped = s.stopped
  done : t.done = true
  loops : t.queue.count .loop = s.queue.count .loop
  begun : t.stop.begun = s.stop.begun
  entering : t.stop = .entering ↔ s.stop = .entering

theorem promised_setStopPromise : Promised s s.setStopPromise := by
  unfold Control.setStopPromise
  split
  · rename_i waiting
    exact ⟨rfl, rfl, rfl, rfl, rfl, by simp, by rw [waiting]; rfl, by simp [waiting]⟩
  · exact ⟨rfl, rfl, rfl, rfl, rfl, rfl, rfl, .rfl⟩

theorem Stopping.setStopPromise (stopping : Stopping s) : Stopping s.setStopPromise := by
  obtain ⟨begun, stops, -, -⟩ := stopping
  unfold Control.setStopPromise
  split
  · rename_i waits
    refine ⟨fun _ => begun (by rw [waits]; rfl), ?_, nofun, fun _ => rfl⟩
    rw [waits] at stops
    simp [stops, StopPC.queued]
  · rename_i other
    exact ⟨begun, stops, fun waits => absurd waits other, fun _ => rfl⟩

theorem runLoop_entering (loop : s.loop = .switching) :
    s.runLoop = { s with loop := .entering, current := some .loop } := by
  unfold Control.runLoop
  rw [loop]

theorem runLoop_awaited (loop : s.loop = .scheduled) (here : s.listenChannel = some ch) :
    s.runLoop = s.awaited ch := by
  unfold Control.runLoop
  rw [loop, here]

theorem runStop_entering (stop : s.stop = .switching) :
    s.runStop = { s with stop := .entering, current := some .stop } := by
  unfold Control.runStop
  rw [stop]

theorem runStop_returned (stop : s.stop = .scheduled) :
    s.runStop = { s with stop := .returned, current := some .user } := by
  unfold Control.runStop
  rw [stop]

end

namespace Ready
variable {s : Control} {ch : Channel Unit}

section
variable (ready : Ready s ch)
include ready

theorem endLoop : Sound (s.endLoop ch) := by
  have stopping : Stopping (s.endLoop ch) := Stopping.setStopPromise
    { ready with }
  have promised : Promised { s with
      listenChannel := some ch.disableAll
      loop := .ended
      current := some .user } (s.endLoop ch) := promised_setStopPromise
  obtain ⟨loop, channel, -, stopped, done, loops, begun, entering⟩ := promised
  refine ⟨stopping, ?_, ?_, ?_, ?_, ?_, ?_, ?_, ?_, ?_⟩
  · simp [loop, running]
  · exact fun here => absurd (entering.mp here) ready.entering
  · simp [loop, channel, opened]
  · simp [loop, channel, disableAll, ready.slot]
  · simp [channel, disableAll, ready.writer]
  · simpa [channel, disableAll, begun] using ready.uncanceled
  · simp [loop, done, finished]
  · rw [stopped, begun]
    exact fun was => .inl (ready.stopped was)
  · rw [loops, loop]
    exact ready.loops

theorem accepting :
    Sound { s with listenChannel := some ch, loop := .accepting, current := some .loop } where
  toStopping := { ready with }
  running _ := rfl
  entering entering := absurd entering ready.entering
  opened := rfl
  slot := by simp [ready.slot]
  writer := by simp [ready.writer]
  uncanceled := by simpa using ready.uncanceled
  done := ready.undone
  stopped was := .inl (ready.stopped was)
  loops := ready.loops

theorem awaited (here : s.listenChannel = some ch) : Sound (s.awaited ch) := by
  unfold Control.awaited
  split
  · exact Ready.endLoop { ready with uncanceled := fun _ => rfl }
  · rw [here]
    exact ready.accepting

theorem suspend :
    Sound { s with
      listenChannel := some (ch.wait () .read)
      loop := .suspended
      current := none } where
  toStopping := { ready with }
  running := nofun
  entering entering := absurd entering ready.entering
  opened := rfl
  slot := by simp [wait]
  writer := by simp [wait, ready.writer]
  uncanceled := by simpa [wait] using ready.uncanceled
  done := ready.undone
  stopped was := .inl (ready.stopped was)
  loops := ready.loops

theorem performRead : Sound (s.performRead ch) := by
  unfold Control.performRead
  split
  · exact ready.accepting
  split
  · refine Ready.awaited ?_ rfl
    exact ⟨{ ready with }, ready.entering, ready.slot,
      ready.writer, ready.uncanceled, ready.undone, ready.stopped, ready.loops⟩
  · exact ready.suspend

theorem loopHead : Sound (s.loopHead ch) := by
  unfold Control.loopHead
  split
  · exact ready.endLoop
  · exact ready.performRead

end

end Ready

namespace Sound
variable {s : Control}

section
variable (sound : Sound s)
include sound

theorem begun_of_stopped (loop : s.loop ≠ .failed) (was : s.stopped) : s.stop.begun :=
  (sound.stopped was).resolve_right loop

theorem unwaited (here : s.listenChannel = some ch) (other : s.loop ≠ .suspended) :
    ch.readableWaiter = none := by
  have slot := (sound.slot ch here).not.mpr other
  simpa using slot

theorem outside (running : s.loop.running) : s.stop ≠ .entering := by
  intro stop
  cases (sound.running running).symm.trans (sound.entering stop)

theorem goesOn (outside : s.stop ≠ .entering) (loop : s.loop.finished = false)
    (slot : ch.readableWaiter = none) (writer : ch.writableWaiter = none)
    (uncanceled : s.stop.begun = false → ch.readCanceled = false)
    (stops : queue.count .stop = s.queue.count .stop) (loops : queue.count .loop = 0) :
    Ready { s with queue := queue } ch where
  toStopping := ⟨sound.begun, stops.trans sound.stops, sound.waiting, sound.resumed⟩
  entering := outside
  slot := slot
  writer := writer
  uncanceled := uncanceled
  undone := sound.done.trans loop
  stopped := sound.begun_of_stopped fun failed => by
    rw [failed] at loop
    cases loop
  loops := loops

theorem ready (here : s.listenChannel = some ch) (running : s.loop = .accepting) : Ready s ch :=
  sound.goesOn (sound.outside (by rw [running]; rfl)) (by rw [running]; rfl)
    (sound.unwaited here (by rw [running]; exact nofun)) (sound.writer ch here)
    (sound.uncanceled ch here) rfl (by rw [sound.loops, running]; rfl)

theorem wakes (first : s.queue = .loop :: rest) (free : s.current = none)
    (here : s.listenChannel = some ch) (scheduled : s.loop = .scheduled) :
    Ready { s with queue := rest } ch := by
  have loops := sound.loops
  rw [first, scheduled, count_cons_self] at loops
  exact sound.goesOn (fun stop => by cases free.symm.trans (sound.entering stop))
    (by rw [scheduled]; rfl) (sound.unwaited here (by rw [scheduled]; exact nofun))
    (sound.writer ch here) (sound.uncanceled ch here) (by simp [first]) (Nat.succ.inj loops)

theorem accept (here : s.listenChannel = some ch) (running : s.loop = .accepting)
    (c : Nat) (answer : Answer) : Sound (s.accept ch c answer) := by
  have ready := sound.ready here running
  cases answer with
  | success =>
    refine Ready.loopHead { ready with stops := ?_, loops := ?_ }
    · simpa using ready.stops
    · simpa using ready.loops
  | again =>
    exact Ready.performRead { ready with }
  | interrupted => exact sound
  | failed => exact ready.endLoop

theorem unopened (closed : s.loop.opened = false) : s.listenChannel = none := by
  have opened := sound.opened
  rw [closed] at opened
  simpa using opened

theorem start (entering : s.loop = .entering) (listens : Bool) : Sound (s.start listens) := by
  have outside := sound.outside (by rw [entering]; rfl)
  have loops : s.queue.count .loop = 0 := by
    rw [sound.loops, entering]
    rfl
  unfold Control.start
  split
  · exact Ready.loopHead
      (sound.goesOn outside (by rw [entering]; rfl) rfl rfl (fun _ => rfl) rfl loops)
  have unopened := sound.unopened (by rw [entering]; rfl)
  let t : Control := { s with stopped := true, loop := .failed, current := some .user }
  have stopping : Stopping t.setStopPromise := Stopping.setStopPromise
    ⟨fun _ => rfl, sound.stops, sound.waiting, sound.resumed⟩
  have promised : Promised t t.setStopPromise := promised_setStopPromise
  generalize t.setStopPromise = u at stopping promised
  have channel : u.listenChannel = none := promised.channel.trans unopened
  refine ⟨stopping, ?_, ?_, ?_, ?_, ?_, ?_, ?_, ?_, ?_⟩
  · rw [promised.loop]
    exact nofun
  · exact fun stop => absurd (promised.entering.mp stop) outside
  · rw [channel, promised.loop]
    rfl
  · simp [channel]
  · simp [channel]
  · simp [channel]
  · rw [promised.done, promised.loop]
    rfl
  · exact fun _ => .inr promised.loop
  · rw [promised.loops, promised.loop]
    exact loops

theorem pop (first : s.queue = handle :: rest) (loop : handle ≠ .loop)
    (stop : handle ≠ .stop) : Sound { s with queue := rest } := by
  have loops := sound.loops
  have stops := sound.stops
  rw [first, count_cons_of_ne loop] at loops
  rw [first, count_cons_of_ne stop] at stops
  exact { sound with loops := loops, stops := stops }

theorem push (loop : handle ≠ .loop) (stop : handle ≠ .stop) :
    Sound { s with queue := s.queue ++ [handle] } := by
  have loops := sound.loops
  have stops := sound.stops
  refine { sound with stops := ?_, loops := ?_ }
  · simpa [stop] using stops
  · simpa [loop] using loops

theorem user (running : s.loop.running = false) (entering : s.stop ≠ .entering)
    (current : Option Runner) : Sound { s with current := current } :=
  { sound with
    running := fun loop => by cases running.symm.trans loop
    entering := fun stop => absurd stop entering }

theorem idle (free : s.current ≠ some .loop) (free' : s.current ≠ some .stop) :
    s.loop.running = false ∧ s.stop ≠ .entering := by
  constructor
  · by_contra running
    exact free (sound.running (Bool.not_eq_false _ ▸ running))
  · exact fun stop => free' (sound.entering stop)

theorem enterStart (before : s.loop = .idle ∨ s.loop = .switching)
    (outside : s.stop ≠ .entering) (stops : s.queue.count .stop = queue.count .stop)
    (loops : queue.count .loop = 0) :
    Sound { s with loop := .entering, current := some .loop, queue := queue } := by
  have unopened := sound.unopened (by rcases before with loop | loop <;> rw [loop] <;> rfl)
  have undone : s.done = false := by
    rw [sound.done]
    rcases before with loop | loop <;> rw [loop] <;> rfl
  refine ⟨⟨sound.begun, stops ▸ sound.stops, sound.waiting, sound.resumed⟩, fun _ => rfl,
    fun stop => absurd stop outside, ?_, ?_, ?_, ?_, undone, ?_, loops⟩
  · simp [unopened, LoopPC.opened]
  · simp [unopened]
  · simp [unopened]
  · simp [unopened]
  · refine fun was => .inl (sound.begun_of_stopped (fun failed => ?_) was)
    rcases before with loop | loop <;> cases loop.symm.trans failed

theorem runLoop (first : s.queue = .loop :: rest) (free : s.current = none) :
    Sound { s with queue := rest }.runLoop := by
  have loops := sound.loops
  rw [first, count_cons_self] at loops
  obtain ⟨none, loop | loop⟩ := of_queued loops
  · have outside : s.stop ≠ .entering := fun stop => by
      cases free.symm.trans (sound.entering stop)
    rw [runLoop_entering (s := { s with queue := rest }) loop]
    exact sound.enterStart (.inr loop) outside (by rw [first]; simp) none
  · have opened := sound.opened
    rw [loop] at opened
    obtain ⟨ch, here⟩ := Option.isSome_iff_exists.mp opened
    rw [runLoop_awaited (s := { s with queue := rest }) loop here]
    exact (sound.wakes first free here loop).awaited here

theorem enterStop (before : s.stop = .idle ∨ s.stop = .switching)
    (outside : s.loop.running = false) (loops : s.queue.count .loop = queue.count .loop)
    (stops : queue.count .stop = 0) :
    Sound { s with stop := .entering, current := some .stop, queue := queue } := by
  have unbegun : s.stop.begun = false := by rcases before with stop | stop <;> rw [stop] <;> rfl
  refine ⟨⟨nofun, stops, nofun, nofun⟩, fun loop => ?_, fun _ => rfl, sound.opened, sound.slot,
    sound.writer, fun ch here _ => sound.uncanceled ch here unbegun, sound.done, fun was => ?_,
    loops ▸ sound.loops⟩
  · cases outside.symm.trans loop
  · refine .inr ((sound.stopped was).resolve_left fun begun => ?_)
    cases unbegun.symm.trans begun

theorem runStop (first : s.queue = .stop :: rest) (free : s.current = none) :
    Sound { s with queue := rest }.runStop := by
  have outside : s.loop.running = false := by
    by_contra running
    cases free.symm.trans (sound.running (Bool.not_eq_false _ ▸ running))
  have stops := sound.stops
  have loops : s.queue.count .loop = rest.count .loop := by
    rw [first]
    simp
  rw [first, count_cons_self] at stops
  obtain ⟨none, stop | stop⟩ := StopPC.of_queued stops
  · rw [runStop_entering (s := { s with queue := rest }) stop]
    exact sound.enterStop (.inr stop) outside loops none
  have done : s.done := sound.resumed (by rw [stop]; rfl)
  have was : s.stopped := sound.begun (by rw [stop]; rfl)
  rw [runStop_returned (s := { s with queue := rest }) stop]
  refine ⟨⟨fun _ => was, none, nofun, fun _ => done⟩, fun loop => ?_, nofun, sound.opened,
    sound.slot, sound.writer, fun _ _ => nofun, sound.done, fun _ => .inl rfl,
    loops ▸ sound.loops⟩
  cases outside.symm.trans loop

theorem cancel_suspended (here : s.listenChannel = some ch) (suspended : s.loop = .suspended) :
    s.cancel ch = { s with
      stopped := true
      listenChannel := some { ch.disableAll with readableWaiter := none, readCanceled := true }
      loop := .scheduled
      queue := s.queue ++ [.loop] } := by
  have slot := (sound.slot ch here).mpr suspended
  have writer := sound.writer ch here
  obtain ⟨waiter, waits⟩ := Option.isSome_iff_exists.mp slot
  simp only [Control.cancel, cancelAll, cancelRead, cancelWrite,
    disableAll, waits, writer, wakeReader, Option.toList, append_nil,
    Control.wake]

theorem cancel_other (here : s.listenChannel = some ch) (other : s.loop ≠ .suspended) :
    s.cancel ch = { s with stopped := true, listenChannel := some ch.disableAll } := by
  have slot := sound.unwaited here other
  have writer := sound.writer ch here
  simp only [Control.cancel, cancelAll, cancelRead, cancelWrite,
    disableAll, slot, writer, append_nil, Control.wake]

end

theorem await (stopped : s.stopped) (stops : s.queue.count .stop = 0)
    (outside : s.loop.running = false) (opened : s.listenChannel.isSome = s.loop.opened)
    (slot : ∀ ch, s.listenChannel = some ch → (ch.readableWaiter.isSome ↔ s.loop = .suspended))
    (writer : ∀ ch, s.listenChannel = some ch → ch.writableWaiter = none)
    (done : s.done = s.loop.finished) (loops : s.queue.count .loop = s.loop.queued) :
    Sound s.await := by
  unfold Control.await
  split
  · rename_i finished
    refine ⟨⟨fun _ => stopped, stops, nofun, fun _ => finished⟩, fun running => ?_, nofun, opened,
      slot, writer, fun _ _ => nofun, done, fun _ => .inl rfl, loops⟩
    cases outside.symm.trans running
  · rename_i open_
    refine ⟨⟨fun _ => stopped, stops, fun _ => ?_, nofun⟩, fun running => ?_, nofun, opened,
      slot, writer, fun _ _ => nofun, done, fun _ => .inl rfl, loops⟩
    · exact Bool.not_eq_true _ ▸ open_
    · cases outside.symm.trans running

theorem stop (sound : Sound s) (entering : s.stop = .entering)
    (here : s.listenChannel = some ch) : Sound (s.cancel ch).await := by
  have current := sound.entering entering
  have stops : s.queue.count .stop = 0 := by
    rw [sound.stops, entering]
    rfl
  have outside : s.loop.running = false := by
    by_contra running
    cases current.symm.trans (sound.running (Bool.not_eq_false _ ▸ running))
  have loops := sound.loops
  have opened := sound.opened
  have done := sound.done
  by_cases suspended : s.loop = .suspended
  · rw [sound.cancel_suspended here suspended]
    rw [suspended] at loops done
    apply await
    · rfl
    · simpa using stops
    · rfl
    · rfl
    · simp
    · simpa [disableAll] using sound.writer ch here
    · exact done
    · simpa [queued] using loops
  · rw [sound.cancel_other here suspended]
    apply await
    · rfl
    · exact stops
    · exact outside
    · simpa [here] using opened
    · simpa [disableAll] using sound.slot ch here
    · simpa [disableAll] using sound.writer ch here
    · exact done
    · exact loops

/-- An event wakes the loop if it is suspended, and does not mark it canceled. -/
theorem handleIoEvents_frame {ch : Channel Unit} (writer : ch.writableWaiter = none) (ev : Events) :
    (ch.handleIoEvents ev).1.writableWaiter = none ∧
    (ch.handleIoEvents ev).1.readCanceled = ch.readCanceled ∧ ((ch.handleIoEvents ev).2 = [] ∧
        (ch.handleIoEvents ev).1.readableWaiter = ch.readableWaiter ∨
      ∃ waiter : Unit, ch.readableWaiter = some waiter ∧ (ch.handleIoEvents ev).2 = [waiter] ∧
        (ch.handleIoEvents ev).1.readableWaiter = none) := by
  obtain ⟨error, input, output⟩ := ev
  cases reader : ch.readableWaiter <;> cases error <;> cases input <;> cases output <;>
    simp [handleIoEvents, wakeReader, wakeWriter, reader, writer]

theorem deliver (sound : Sound s) (here : s.listenChannel = some ch) (ev : Events) :
    Sound ({ s with listenChannel := some (ch.handleIoEvents ev).1 }.wake
      (ch.handleIoEvents ev).2) := by
  have slot := sound.slot ch here
  have opened := sound.opened
  rw [here] at opened
  obtain ⟨writer, canceled, ⟨none, same⟩ | ⟨waiter, waits, woken, cleared⟩⟩ :=
    handleIoEvents_frame (sound.writer ch here) ev
  · rw [none, Control.wake]
    refine { sound with opened := opened, slot := ?_, writer := ?_, uncanceled := ?_ }
    · simpa [same] using slot
    · simpa using writer
    · simpa [canceled] using sound.uncanceled ch here
  have suspended : s.loop = .suspended := slot.mp (by rw [waits]; rfl)
  have loops := sound.loops
  have done := sound.done
  rw [suspended] at loops done
  rw [woken, Control.wake]
  refine ⟨⟨sound.begun, ?_, sound.waiting, sound.resumed⟩, nofun, sound.entering, rfl, ?_, ?_, ?_,
    done, ?_, ?_⟩
  · simpa using sound.stops
  · simp [cleared]
  · simpa using writer
  · simpa [canceled] using sound.uncanceled ch here
  · exact fun was => .inl (sound.begun_of_stopped (by rw [suspended]; exact nofun) was)
  · simpa [queued] using loops

end Sound

theorem accept_control (s : State) (ch : Channel Unit) (answer : Answer) :
    (s.accept ch answer).toControl = s.toControl.accept ch s.accepted answer := by
  cases answer <;> rfl

theorem shutdownAll_frame (s : State) (conns : List Nat) :
    (s.shutdownAll conns).toControl = s.toControl ∧
      (s.shutdownAll conns).accepted = s.accepted ∧
      (s.shutdownAll conns).connSet = s.connSet := by
  induction conns generalizing s with
  | nil => exact ⟨rfl, rfl, rfl⟩
  | cons c conns ih =>
    unfold State.shutdownAll
    split
    · exact ih _
    · exact ⟨rfl, rfl, rfl⟩

/-- `stop()` returns at once if it was called before or the loop failed. Without a listening socket
it dereferences a null channel. -/
theorem stopBody_cases {s : State} (alive : s.stopBody.crashed = false) :
    s.stopped ∧ s.stopBody = { s with stop := .returned, current := some .user } ∨
    ∃ ch, s.listenChannel = some ch ∧
      s.stopBody = { { s with toControl := s.toControl.cancel ch }.shutdownAll s.connSet with
        toControl := (s.toControl.cancel ch).await } := by
  unfold State.stopBody at alive ⊢
  split
  · rename_i stopped
    exact .inl ⟨stopped, rfl⟩
  rename_i open_
  rw [if_neg open_] at alive
  cases here : s.listenChannel with
  | none => simp [here, State.crash] at alive
  | some ch =>
    have control := (shutdownAll_frame { s with toControl := s.toControl.cancel ch } s.connSet).1
    simp only [here] at alive ⊢
    split at alive
    · rename_i crashed
      cases crashed.symm.trans alive
    · rename_i fine
      rw [if_neg fine, control]
      exact .inr ⟨ch, rfl, rfl⟩

inductive Effect (s : State) : Action → State → Prop
  | callStart (idle : s.loop = .idle) :
    Effect s .callStart { s with loop := .switching, queue := s.queue ++ [.loop] }
  | callStop (idle : s.stop = .idle) :
    Effect s .callStop { s with stop := .switching, queue := s.queue ++ [.stop] }
  | awaitStart (user : s.current = some .user) (idle : s.loop = .idle) :
    Effect s .awaitStart { s with loop := .entering, current := some .loop }
  | awaitStop (user : s.current = some .user) (idle : s.stop = .idle) :
    Effect s .awaitStop { s with stop := .entering, current := some .stop }
  | start (entering : s.loop = .entering) :
    Effect s (.start listens) { s with toControl := s.toControl.start listens }
  | accept (running : s.loop = .accepting) (here : s.listenChannel = some ch) :
    Effect s (.accept answer) (s.accept ch answer)
  | stop (entering : s.stop = .entering) : Effect s .stop s.stopBody
  | deliver (here : s.listenChannel = some ch) : Effect s (.deliver ev) { s with
      toControl := { s.toControl with listenChannel := some (ch.handleIoEvents ev).1 }.wake
        (ch.handleIoEvents ev).2 }
  | run (free : s.current = none) (first : s.queue = handle :: rest) :
    Effect s .run ({ s with queue := rest }.runHead handle)
  | wake : Effect s .wake { s with queue := s.queue ++ [.user] }
  | yield (user : s.current = some .user) : Effect s .yield { s with current := none }
  | apply (below : c < s.accepted) (applied : (s.conn c).apply op = some conn) :
    Effect s (.conn c op) (s.setConn c conn)
  | crash : Effect s (.conn c op) s.crash
  | erase (running : (s.conn c).handler = .running) : Effect s (.finish c own) (s.erase c)
  | finish (running : (s.conn c).handler = .running) : Effect s (.finish c own)
    ({ s with queue := s.queue ++ [Handle.erase c] }.setConn c
      { s.conn c with handler := .returned })

theorem effect_of_act {s : State} (acted : s.act action = some t) : Effect s action t := by
  cases action with
  | wake =>
    cases acted
    exact .wake
  | callStart | callStop | start | stop | yield =>
    obtain ⟨guard, rfl⟩ := of_ite acted
    constructor
    exact guard
  | awaitStart | awaitStop =>
    obtain ⟨⟨user, idle⟩, rfl⟩ := of_ite acted
    constructor <;> assumption
  | accept | deliver | run =>
    simp only [State.act] at acted
    split at acted <;> cases acted
    constructor <;> assumption
  | conn c op =>
    obtain ⟨⟨below, -⟩, acted⟩ := Option.ite_none_right_eq_some.mp acted
    split at acted <;> cases acted
    · exact .apply below ‹_›
    · exact .crash
  | finish c own =>
    obtain ⟨-, acted⟩ := Option.ite_none_right_eq_some.mp acted
    unfold State.finish at acted
    split at acted
    · cases acted
    rename_i running
    have running := Decidable.of_not_not running
    split at acted
    · obtain ⟨-, rfl⟩ := of_ite acted
      exact .erase running
    · cases acted
      exact .finish running

namespace Sound

theorem callStart {s : Control} (sound : Sound s) (idle : s.loop = .idle) :
    Sound { s with loop := .switching, queue := s.queue ++ [.loop] } := by
  have unopened := sound.unopened (by rw [idle]; rfl)
  have done := sound.done
  have loops := sound.loops
  rw [idle] at done loops
  refine ⟨⟨sound.begun, ?_, sound.waiting, sound.resumed⟩, nofun, sound.entering, ?_, ?_, ?_, ?_,
    done, ?_, ?_⟩
  · simpa using sound.stops
  · simp [unopened, LoopPC.opened]
  · simp [unopened]
  · simp [unopened]
  · simp [unopened]
  · exact fun was => .inl (sound.begun_of_stopped (by rw [idle]; exact nofun) was)
  · simpa [queued] using loops

theorem callStop {s : Control} (sound : Sound s) (idle : s.stop = .idle) :
    Sound { s with stop := .switching, queue := s.queue ++ [.stop] } := by
  have stops := sound.stops
  rw [idle] at stops
  refine ⟨⟨nofun, ?_, nofun, nofun⟩, sound.running, nofun, sound.opened, sound.slot, sound.writer,
    fun ch here _ => sound.uncanceled ch here (by rw [idle]; rfl), sound.done, fun was => ?_, ?_⟩
  · simpa [StopPC.queued] using stops
  · refine .inr ((sound.stopped was).resolve_left ?_)
    rw [idle]
    exact nofun
  · simpa using sound.loops

theorem failed {s : Control} (sound : Sound s) (entering : s.stop = .entering)
    (stopped : s.stopped) : s.loop = .failed := by
  apply (sound.stopped stopped).resolve_left
  rw [entering]
  exact nofun

theorem stop_failed {s : Control} (sound : Sound s) (entering : s.stop = .entering)
    (stopped : s.stopped) : Sound { s with stop := .returned, current := some .user } := by
  have failed := sound.failed entering stopped
  have stops := sound.stops
  have done := sound.done
  rw [entering] at stops
  refine ⟨⟨fun _ => stopped, stops, nofun, fun _ => ?_⟩, ?_, nofun, sound.opened, sound.slot,
    sound.writer, fun _ _ => nofun, done, fun _ => .inl rfl, sound.loops⟩
  · rw [failed] at done
    exact done
  · rw [failed]
    exact nofun

theorem stopBody {s : State} (sound : Sound s.toControl) (entering : s.stop = .entering)
    (alive : s.stopBody.crashed = false) : Sound s.stopBody.toControl := by
  obtain ⟨stopped, body⟩ | ⟨ch, here, body⟩ := stopBody_cases alive
  · rw [body]
    exact sound.stop_failed entering stopped
  · rw [body]
    exact sound.stop entering here

theorem runHead {s : State} (sound : Sound s.toControl) (first : s.queue = handle :: rest)
    (free : s.current = none) : Sound ({ s with queue := rest }.runHead handle).toControl := by
  have idle := sound.idle (by rw [free]; exact nofun) (by rw [free]; exact nofun)
  cases handle with
  | loop => exact sound.runLoop first free
  | stop => exact sound.runStop first free
  | spawn | user => exact (sound.pop first nofun nofun).user idle.1 idle.2 _
  | erase c => exact sound.pop first nofun nofun

theorem act (sound : Sound s.toControl) (acted : State.act s action = some t)
    (alive : action = .stop → t.crashed = false) : Sound t.toControl := by
  cases effect_of_act acted with
  | callStart idle => exact sound.callStart idle
  | callStop idle => exact sound.callStop idle
  | awaitStart user waits =>
    have idle := sound.idle (by rw [user]; exact nofun) (by rw [user]; exact nofun)
    exact sound.enterStart (.inl waits) idle.2 rfl (by rw [sound.loops, waits]; rfl)
  | awaitStop user waits =>
    have idle := sound.idle (by rw [user]; exact nofun) (by rw [user]; exact nofun)
    exact sound.enterStop (.inl waits) idle.1 rfl (by rw [sound.stops, waits]; rfl)
  | start entering => exact sound.start entering _
  | @accept ch answer running here =>
    rw [accept_control]
    exact sound.accept here running s.accepted answer
  | stop entering => exact sound.stopBody entering (alive rfl)
  | deliver here => exact sound.deliver here _
  | run free first => exact sound.runHead first free
  | wake | finish => exact sound.push nofun nofun
  | yield user =>
    have idle := sound.idle (by rw [user]; exact nofun) (by rw [user]; exact nofun)
    exact sound.user idle.1 idle.2 none
  | apply | crash | erase => exact sound

end Sound

def starts : HandlerPC → Nat
  | .spawned => 1
  | _ => 0

def ends : HandlerPC → Nat
  | .returned => 1
  | _ => 0

/-- The coroutine of a connection is in the ready queue until it starts, and after its handler
returned elsewhere. The set has the connections whose coroutine is not over. -/
structure Members (s : State) : Prop where
  fresh : ∀ c, s.accepted ≤ c → s.conn c = {}
  unopened : s.listenChannel = none → s.accepted = 0
  bounded : ∀ c ∈ s.connSet, c < s.accepted
  set : ∀ c < s.accepted, (s.conn c).handler ≠ .erased → c ∈ s.connSet
  unspawned : ∀ c, s.accepted ≤ c → s.queue.count (.spawn c) = 0
  spawns : ∀ c < s.accepted, s.queue.count (.spawn c) = starts (s.conn c).handler
  erases : ∀ c, s.queue.count (.erase c) = ends (s.conn c).handler

structure Apart (s t : Control) : Prop where
  spawns : ∀ c, t.queue.count (.spawn c) = s.queue.count (.spawn c)
  erases : ∀ c, t.queue.count (.erase c) = s.queue.count (.erase c)
  channel : t.listenChannel = none → s.listenChannel = none

namespace Apart
variable {s t u : Control} {ch : Channel Unit}

theorem refl : Apart s s := ⟨fun _ => rfl, fun _ => rfl, id⟩

theorem trans (first : Apart s t) (second : Apart t u) : Apart s u :=
  ⟨fun c => (second.spawns c).trans (first.spawns c),
    fun c => (second.erases c).trans (first.erases c), first.channel ∘ second.channel⟩

theorem push (same : t.listenChannel = s.listenChannel) (queue : t.queue = s.queue ++ [handle])
    (system : handle = .loop ∨ handle = .stop ∨ handle = .user) : Apart s t := by
  refine ⟨fun c => ?_, fun c => ?_, same ▸ id⟩ <;> rw [queue] <;>
    rcases system with rfl | rfl | rfl <;> simp

theorem setStopPromise : Apart s s.setStopPromise := by
  unfold Control.setStopPromise
  split
  · exact push rfl rfl (.inr (.inl rfl))
  · exact ⟨fun _ => rfl, fun _ => rfl, id⟩

theorem endLoop : Apart s (s.endLoop ch) := by
  have opened : Apart s { s with
      listenChannel := some ch.disableAll
      loop := .ended
      current := some .user } := ⟨fun _ => rfl, fun _ => rfl, nofun⟩
  exact opened.trans setStopPromise

theorem awaited : Apart s (s.awaited ch) := by
  unfold Control.awaited
  split
  · exact endLoop
  · exact ⟨fun _ => rfl, fun _ => rfl, id⟩

theorem performRead : Apart s (s.performRead ch) := by
  unfold Control.performRead
  split
  · exact ⟨fun _ => rfl, fun _ => rfl, nofun⟩
  split
  · have opened : Apart s { s with listenChannel := some ch } :=
      ⟨fun _ => rfl, fun _ => rfl, nofun⟩
    exact opened.trans awaited
  · exact ⟨fun _ => rfl, fun _ => rfl, nofun⟩

theorem loopHead : Apart s (s.loopHead ch) := by
  unfold Control.loopHead
  split
  · exact endLoop
  · exact performRead

theorem start : Apart s (s.start listens) := by
  unfold Control.start
  split
  · exact loopHead
  · have failed : Apart s { s with stopped := true, loop := .failed, current := some .user } :=
      ⟨fun _ => rfl, fun _ => rfl, id⟩
    exact failed.trans setStopPromise

theorem wake (woken : List Unit) : Apart s (s.wake woken) := by
  cases woken with
  | nil => exact refl
  | cons _ _ => exact push rfl rfl (.inl rfl)

theorem cancel : Apart s (s.cancel ch) := by
  have canceled : Apart s { s with
      stopped := true
      listenChannel := some ch.disableAll.cancelAll.1 } := ⟨fun _ => rfl, fun _ => rfl, nofun⟩
  exact canceled.trans (wake _)

theorem await : Apart s s.await := by
  unfold Control.await
  split <;> exact ⟨fun _ => rfl, fun _ => rfl, id⟩

theorem runLoop : Apart s s.runLoop := by
  unfold Control.runLoop
  split
  · exact ⟨fun _ => rfl, fun _ => rfl, id⟩
  · exact awaited
  · exact refl

theorem runStop : Apart s s.runStop := by
  unfold Control.runStop
  split
  · exact ⟨fun _ => rfl, fun _ => rfl, id⟩
  · exact ⟨fun _ => rfl, fun _ => rfl, id⟩
  · exact refl

end Apart

theorem shutdown_frame (shut : Conn.shutdown before = some after) :
    after.handler = before.handler ∧ after.shut = before.shut := by
  unfold Conn.shutdown at shut
  split at shut
  · split at shut <;> cases shut <;> exact ⟨rfl, rfl⟩
  · cases shut

theorem apply_frame (applied : Conn.apply before op = some after) :
    after.handler = before.handler ∧ after.shut = before.shut := by
  cases op with
  | shutdown => exact shutdown_frame applied
  | forceClose =>
    obtain ⟨-, rfl⟩ := of_ite applied
    exact ⟨rfl, rfl⟩
  | _ =>
    cases applied
    exact ⟨rfl, rfl⟩

namespace Members
variable {s : State}

section
variable (members : Members s)
include members

theorem apart {t : Control} (apart : Apart s.toControl t) :
    Members { s with toControl := t } where
  fresh := members.fresh
  unopened none := members.unopened (apart.channel none)
  bounded := members.bounded
  set := members.set
  unspawned c above := (apart.spawns c).trans (members.unspawned c above)
  spawns c below := (apart.spawns c).trans (members.spawns c below)
  erases c := (apart.erases c).trans (members.erases c)

theorem move {q : List Handle} {l : List Nat} {k : Conn} (below : c < s.accepted)
    (others : ∀ d, d ≠ c → q.count (.spawn d) = s.queue.count (.spawn d) ∧
      q.count (.erase d) = s.queue.count (.erase d) ∧ (d ∈ s.connSet → d ∈ l))
    (spawned : q.count (.spawn c) = starts k.handler)
    (returned : q.count (.erase c) = ends k.handler) (bounded : ∀ d ∈ l, d < s.accepted)
    (active : k.handler ≠ .erased → c ∈ l) :
    Members ({ s with queue := q, connSet := l }.setConn c k) := by
  have here : update s.conn c k c = k := update_self ..
  have there : ∀ d, d ≠ c → update s.conn c k d = s.conn d :=
    fun d other => update_of_ne other ..
  have above : ∀ d, s.accepted ≤ d → d ≠ c := by omega
  refine ⟨fun d above' => ?_, members.unopened, bounded, fun d below' alive => ?_,
    fun d above' => ?_, fun d below' => ?_, fun d => ?_⟩ <;> simp only [State.setConn] at *
  · exact (there d (above d above')).trans (members.fresh d above')
  · rcases eq_or_ne d c with rfl | other
    · rw [here] at alive
      exact active alive
    · rw [there d other] at alive
      exact (others d other).2.2 (members.set d below' alive)
  · exact (others d (above d above')).1.trans (members.unspawned d above')
  · rcases eq_or_ne d c with rfl | other
    · rw [here, spawned]
    · rw [there d other]
      exact (others d other).1.trans (members.spawns d below')
  · rcases eq_or_ne d c with rfl | other
    · rw [here, returned]
    · rw [there d other]
      exact (others d other).2.1.trans (members.erases d)

theorem setConn (below : c < s.accepted)
    (same : conn.handler = (s.conn c).handler) : Members (s.setConn c conn) := by
  refine members.move below (fun d _ => ⟨rfl, rfl, id⟩) ?_ ?_ members.bounded ?_ <;> rw [same]
  · exact members.spawns c below
  · exact members.erases c
  · exact members.set c below

theorem below_of_handler (handler : (s.conn c).handler ≠ .spawned) : c < s.accepted := by
  by_contra above
  rw [members.fresh c (by omega)] at handler
  exact handler rfl

theorem erase (running : (s.conn c).handler = .running) : Members (s.erase c) := by
  have below := members.below_of_handler (by rw [running]; exact nofun)
  have spawns := members.spawns c below
  have erases := members.erases c
  rw [running] at spawns erases
  refine members.move below (fun d other => ⟨rfl, rfl, ?_⟩) spawns erases ?_ (absurd rfl)
  · exact fun mem => (mem_erase_of_ne other).mpr mem
  · exact fun d mem => members.bounded d (mem_of_mem_erase mem)

theorem finish (running : (s.conn c).handler = .running) :
    Members ({ s with queue := s.queue ++ [Handle.erase c] }.setConn c
      { s.conn c with handler := .returned }) := by
  have below := members.below_of_handler (by rw [running]; exact nofun)
  have spawns := members.spawns c below
  have erases := members.erases c
  rw [running] at spawns erases
  refine members.move below (fun d other => ⟨?_, ?_, id⟩) ?_ ?_ members.bounded fun _ => ?_
  · simp
  · simp [Ne.symm other]
  · simpa [starts] using spawns
  · simpa [ends] using erases
  · exact members.set c below (by rw [running]; exact nofun)

end

theorem of_starts (started : n + 1 = starts pc) : n = 0 ∧ pc = .spawned := by
  cases pc <;> simp_all [starts]

theorem of_ends (ended : n + 1 = ends pc) : n = 0 ∧ pc = .returned := by
  cases pc <;> simp_all [ends]

section
variable (members : Members s)
include members

theorem runSpawn (first : s.queue = .spawn c :: rest) :
    Members ({ s with queue := rest }.runHead (.spawn c)) := by
  have below : c < s.accepted := by
    by_contra above
    have none := members.unspawned c (by omega)
    simp [first] at none
  have spawns := members.spawns c below
  have erases := members.erases c
  rw [first, count_cons_self] at spawns
  have other : Handle.spawn c ≠ .erase c := nofun
  obtain ⟨none, spawned⟩ := of_starts spawns
  rw [first, spawned] at erases
  have moved : Members ({ s with queue := rest }.setConn c
      { s.conn c with handler := .running }) := by
    refine members.move below (fun d other => ?_) none erases members.bounded fun _ => ?_
    · simp [first, Ne.symm other]
    · exact members.set c below (by rw [spawned]; exact nofun)
  exact moved.apart ⟨fun _ => rfl, fun _ => rfl, id⟩

theorem runErase (first : s.queue = .erase c :: rest) :
    Members ({ s with queue := rest }.runHead (.erase c)) := by
  have erases := members.erases c
  rw [first, count_cons_self] at erases
  obtain ⟨none, returned⟩ := of_ends erases
  have below := members.below_of_handler (by rw [returned]; exact nofun)
  have spawns := members.spawns c below
  have other : Handle.erase c ≠ .spawn c := nofun
  rw [first, returned] at spawns
  refine members.move below (fun d other => ⟨?_, ?_, ?_⟩) spawns none ?_ (absurd rfl)
  · simp [first]
  · simp [first, Ne.symm other]
  · exact fun mem => (mem_erase_of_ne other).mpr mem
  · exact fun d mem => members.bounded d (mem_of_mem_erase mem)

theorem runHead (first : s.queue = handle :: rest) :
    Members ({ s with queue := rest }.runHead handle) := by
  have popped : (∀ c, handle ≠ .spawn c) → (∀ c, handle ≠ .erase c) →
      Apart s.toControl { s.toControl with queue := rest } := fun spawn erase =>
    ⟨fun c => by rw [first, count_cons_of_ne (spawn c)],
      fun c => by rw [first, count_cons_of_ne (erase c)], id⟩
  cases handle with
  | loop => exact members.apart ((popped nofun nofun).trans .runLoop)
  | stop => exact members.apart ((popped nofun nofun).trans .runStop)
  | spawn c => exact members.runSpawn first
  | erase c => exact members.runErase first
  | user =>
    have apart := popped nofun nofun
    exact members.apart { apart with }

theorem insert (here : s.listenChannel = some ch) : Members ({ s with
      queue := s.queue ++ [Handle.spawn s.accepted]
      accepted := s.accepted + 1
      connSet := s.connSet ++ [s.accepted] }.setConn s.accepted {}) := by
  have fresh := members.fresh s.accepted (Nat.le_refl _)
  have conns : update s.conn s.accepted {} = s.conn := by
    rw [← fresh, update_eq_self]
  simp only [State.setConn, conns]
  refine ⟨fun c above => members.fresh c ?_, fun none => ?_, fun c mem => ?_,
    fun c below active => ?_, fun c above => ?_, fun c below => ?_, fun c => ?_⟩
  · simp only at above
    omega
  · cases here.symm.trans none
  · rcases mem_append.mp mem with old | new
    · exact Nat.lt_succ_of_lt (members.bounded c old)
    · rw [mem_singleton.mp new]
      exact Nat.lt_succ_self _
  · rcases Nat.lt_succ_iff_lt_or_eq.mp below with before | rfl
    · exact mem_append_left _ (members.set c before active)
    · exact mem_append_right _ mem_cons_self
  · simp only at above
    have other : s.accepted ≠ c := by omega
    simpa [other] using members.unspawned c (by omega)
  · rcases Nat.lt_succ_iff_lt_or_eq.mp below with before | rfl
    · have other : s.accepted ≠ c := by omega
      simpa [other] using members.spawns c before
    · have none := members.unspawned s.accepted (Nat.le_refl _)
      simp [none, fresh, starts]
  · simpa using members.erases c

theorem accept (here : s.listenChannel = some ch) (answer : Answer) :
    Members (s.accept ch answer) := by
  cases answer with
  | success => exact (members.insert here).apart .loopHead
  | again => exact members.apart .performRead
  | interrupted => exact members
  | failed => exact members.apart .endLoop

theorem crash : Members s.crash :=
  { members with }

theorem shutdownAll (conns : List Nat) (below : ∀ c ∈ conns, c < s.accepted) :
    Members (s.shutdownAll conns) := by
  induction conns generalizing s with
  | nil => exact members
  | cons c conns ih =>
    unfold State.shutdownAll
    split
    · rename_i conn shut
      have handler : conn.handler = (s.conn c).handler := (shutdown_frame shut).1
      exact ih (members.setConn (below c mem_cons_self) handler)
        fun d mem => below d (mem_cons_of_mem _ mem)
    · exact members.crash

theorem stopBody (alive : s.stopBody.crashed = false) : Members s.stopBody := by
  obtain ⟨-, body⟩ | ⟨ch, -, body⟩ := stopBody_cases alive
  · rw [body]
    exact members.apart ⟨fun _ => rfl, fun _ => rfl, id⟩
  · have canceled : Apart s.toControl (s.toControl.cancel ch) := .cancel
    have shut := (members.apart canceled).shutdownAll s.connSet members.bounded
    have control := (shutdownAll_frame { s with toControl := s.toControl.cancel ch } s.connSet).1
    rw [body]
    apply shut.apart
    rw [control]
    exact .await

theorem act (acted : s.act action = some t)
    (alive : action = .stop → t.crashed = false) : Members t := by
  cases effect_of_act acted with
  | callStart => exact members.apart (.push rfl rfl (.inl rfl))
  | callStop => exact members.apart (.push rfl rfl (.inr (.inl rfl)))
  | awaitStart | awaitStop | yield => exact members.apart ⟨fun _ => rfl, fun _ => rfl, id⟩
  | start => exact members.apart .start
  | accept _ here => exact members.accept here _
  | stop => exact members.stopBody (alive rfl)
  | @deliver ch ev here =>
    have delivered : Apart s.toControl
        { s.toControl with listenChannel := some (ch.handleIoEvents ev).1 } :=
      ⟨fun _ => rfl, fun _ => rfl, nofun⟩
    exact members.apart (delivered.trans (.wake _))
  | run _ first => exact members.runHead first
  | wake => exact members.apart (.push rfl rfl (.inr (.inr rfl)))
  | apply below applied => exact members.setConn below (apply_frame applied).1
  | crash => exact members.crash
  | erase running => exact members.erase running
  | finish running => exact members.finish running

end

end Members

structure Inv (s : State) : Prop where
  sound : Sound s.toControl
  members : Members s

theorem Inv.start : Inv {} where
  sound := ⟨⟨nofun, rfl, nofun, nofun⟩, nofun, nofun, rfl, nofun, nofun, nofun, rfl, nofun, rfl⟩
  members := ⟨fun _ _ => rfl, fun _ => rfl, nofun, nofun, fun _ _ => rfl, nofun, fun _ => rfl⟩

/-- A step is made by a program that has not crashed. -/
theorem step_iff {s t : State} :
    s.step action = some t ↔ s.crashed = false ∧ s.act action = some t := by
  unfold State.step
  cases s.crashed <;> simp

theorem Inv.step (inv : Inv s) (took : s.step action = some t)
    (alive : action = .stop → t.crashed = false) : Inv t := by
  have acted := (step_iff.mp took).2
  exact ⟨inv.sound.act acted alive, inv.members.act acted alive⟩

theorem Inv.run (inv : Inv s) (run : Run State.step free s labels t)
    (alive : t.crashed = false) : Inv t := by
  have all := run.invariant (P := fun s => s.crashed = false → Inv s) (fun _ => inv)
    fun holds _ took alive => (holds (step_iff.mp took).1).step took fun _ => alive
  exact all alive

/-- `stop()` has taken all connections along, and the accept loop accepts no more. -/
structure Closing (s : State) : Prop where
  begun : s.stop.begun
  conns : ∀ c < s.accepted, (s.conn c).finished ∨ (s.conn c).shut
  loop : s.loop.finished ∨ s.loop = .scheduled ∧ ∃ ch, s.listenChannel = some ch ∧ ch.readCanceled

namespace Closing
variable {s : State}

section
variable (closing : Closing s)
include closing

theorem setConn
    (kept : (s.conn c).finished ∨ (s.conn c).shut → k.finished ∨ k.shut) : Closing (s.setConn c k) := by
  refine ⟨closing.begun, fun d below => ?_, closing.loop⟩
  simp only [State.setConn, update_apply]
  split
  · rename_i here
    exact kept (here ▸ closing.conns d below)
  · exact closing.conns d below

theorem loop_ne (before : pc.finished = false) (other : pc ≠ .scheduled) : s.loop ≠ pc := by
  rintro rfl
  rcases closing.loop with finished | ⟨scheduled, -⟩
  · cases before.symm.trans finished
  · exact other scheduled

theorem stop_ne (before : pc.begun = false) : s.stop ≠ pc := by
  rintro rfl
  cases before.symm.trans closing.begun

theorem runLoop (queue : List Handle) :
    Closing { s with toControl := { s.toControl with queue := queue }.runLoop } := by
  rcases closing.loop with finished | ⟨scheduled, ch, here, canceled⟩
  · have same : { s.toControl with queue := queue }.runLoop =
        { s.toControl with queue := queue } := by
      unfold Control.runLoop
      cases loop : s.loop <;> simp_all [LoopPC.finished]
    rw [same]
    exact ⟨closing.begun, closing.conns, .inl finished⟩
  rw [runLoop_awaited (s := { s.toControl with queue := queue }) scheduled here]
  unfold Control.awaited
  rw [if_pos canceled]
  have promised : Promised _ (Control.endLoop { s.toControl with queue := queue }
    { ch with readCanceled := false }) := promised_setStopPromise
  refine ⟨?_, closing.conns, .inl ?_⟩
  · rw [promised.begun]
    exact closing.begun
  · rw [promised.loop]
    rfl

theorem runStop (queue : List Handle) :
    Closing { s with toControl := { s.toControl with queue := queue }.runStop } := by
  have begun := closing.begun
  unfold Control.runStop
  split
  · rename_i switching
    rw [switching] at begun
    cases begun
  · exact ⟨rfl, closing.conns, closing.loop⟩
  · exact ⟨begun, closing.conns, closing.loop⟩

theorem runHead (members : Members s) (first : s.queue = handle :: rest) :
    Closing ({ s with queue := rest }.runHead handle) := by
  have popped : Closing { s with queue := rest } := { closing with }
  cases handle with
  | loop => exact closing.runLoop rest
  | stop => exact closing.runStop rest
  | spawn c =>
    have spawned : (s.conn c).handler = .spawned := by
      by_cases below : c < s.accepted
      · have spawns := members.spawns c below
        rw [first, count_cons_self] at spawns
        exact (Members.of_starts spawns).2
      · rw [members.fresh c (by omega)]
    have moved := popped.setConn (c := c) (k := { s.conn c with handler := .running }) ?_
    · exact { moved with }
    rintro (finished | shut)
    · have active : (s.conn c).finished = false := by simp [Conn.finished, spawned]
      cases active.symm.trans finished
    · exact .inr shut
  | erase c =>
    have moved := popped.setConn (c := c) (k := { s.conn c with handler := .erased })
      fun _ => .inl rfl
    exact { moved with }
  | user => exact { closing with }

theorem deliver (sound : Sound s.toControl) (here : s.listenChannel = some ch) (ev : Events) :
    Closing { s with
      toControl := { s.toControl with listenChannel := some (ch.handleIoEvents ev).1 }.wake
        (ch.handleIoEvents ev).2 } := by
  obtain ⟨-, canceled, ⟨none, -⟩ | ⟨waiter, waits, -⟩⟩ :=
    Sound.handleIoEvents_frame (sound.writer ch here) ev
  · rw [none]
    refine ⟨closing.begun, closing.conns, closing.loop.imp_right ?_⟩
    rintro ⟨scheduled, ch', here', marked⟩
    cases here.symm.trans here'
    exact ⟨scheduled, _, rfl, canceled.trans marked⟩
  · have suspended := (sound.slot ch here).mp (by rw [waits]; rfl)
    exact absurd suspended (closing.loop_ne rfl nofun)

theorem act (inv : Inv s) (acted : s.act action = some t) : Closing t := by
  cases effect_of_act acted with
  | callStart idle | awaitStart _ idle => exact absurd idle (closing.loop_ne rfl nofun)
  | callStop idle | awaitStop _ idle => exact absurd idle (closing.stop_ne rfl)
  | start entering => exact absurd entering (closing.loop_ne rfl nofun)
  | accept running => exact absurd running (closing.loop_ne rfl nofun)
  | stop entering => exact absurd entering (closing.stop_ne rfl)
  | deliver here => exact closing.deliver inv.sound here _
  | run _ first => exact closing.runHead inv.members first
  | wake | yield | crash => exact { closing with }
  | apply _ applied =>
    refine closing.setConn fun before => ?_
    rwa [Conn.finished, (apply_frame applied).1, (apply_frame applied).2]
  | @erase c =>
    have moved := closing.setConn (c := c) (k := { s.conn c with handler := .erased })
      fun _ => .inl rfl
    exact { moved with }
  | @finish c =>
    have moved := closing.setConn (c := c) (k := { s.conn c with handler := .returned })
      fun _ => .inl rfl
    exact { moved with }

theorem run (inv : Inv s) (run : Run State.step free s labels t) : Closing t ∧ Inv t := by
  refine run.invariant (P := fun s => Closing s ∧ Inv s) ⟨closing, inv⟩ ?_
  rintro s t action ⟨closing, inv⟩ - took
  have acted := (step_iff.mp took).2
  refine ⟨closing.act inv acted, inv.step took ?_⟩
  rintro rfl
  obtain ⟨entering, rfl⟩ := of_ite acted
  exact absurd entering (closing.stop_ne rfl)

theorem settled (inv : Inv s) (returned : s.stop = .returned) : s.Settled := by
  have done := inv.sound.resumed (by rw [returned]; rfl)
  rw [inv.sound.done] at done
  refine ⟨?_, closing.conns⟩
  cases loop : s.loop <;> simp_all [finished]

end

end Closing

theorem shutdownAll_shuts (s : State) (conns : List Nat)
    (alive : (s.shutdownAll conns).crashed = false) :
    (∀ c, (s.conn c).handler = ((s.shutdownAll conns).conn c).handler) ∧
    (∀ c, (s.conn c).shut ∨ c ∈ conns → ((s.shutdownAll conns).conn c).shut) := by
  induction conns generalizing s with
  | nil => exact ⟨fun _ => rfl, fun _ shut => shut.resolve_right not_mem_nil⟩
  | cons c conns ih =>
    unfold State.shutdownAll at alive ⊢
    cases shut : (s.conn c).shutdown with
    | none =>
      simp only [shut] at alive
      cases alive
    | some conn =>
      simp only [shut] at alive ⊢
      obtain ⟨handlers, shuts⟩ := ih _ alive
      have at_ : ∀ d, (s.setConn c { conn with shut := true }).conn d =
          if d = c then { conn with shut := true } else s.conn d :=
        fun d => update_apply ..
      refine ⟨fun d => ?_, fun d either => shuts d ?_⟩
      · rw [← handlers d, at_]
        split
        · rename_i same
          rw [same, ← (shutdown_frame shut).1]
        · rfl
      · rw [at_]
        split
        · exact .inl rfl
        · rename_i other
          simpa [other] using either

theorem await_frame (s : Control) : s.await.loop = s.loop ∧
    s.await.listenChannel = s.listenChannel ∧ s.await.stop.begun := by
  unfold Control.await
  split <;> exact ⟨rfl, rfl, rfl⟩

/-- A loop that `stop()` finds with a channel is suspended, in the ready queue, or over. -/
theorem Sound.opened_loop {s : Control} (sound : Sound s) (entering : s.stop = .entering)
    (here : s.listenChannel = some ch) :
    s.loop = .suspended ∨ s.loop = .scheduled ∨ s.loop = .ended := by
  have current := sound.entering entering
  have opened := sound.opened
  have running := sound.running
  cases loop : s.loop <;> simp_all [LoopPC.opened, LoopPC.running]

theorem closing_of_stop {s : State} (inv : Inv s) (entering : s.stop = .entering)
    (alive : s.stopBody.crashed = false) (landed : s.loop ≠ .scheduled) : Closing s.stopBody := by
  obtain ⟨stopped, body⟩ | ⟨ch, here, body⟩ := stopBody_cases alive
  · have failed := inv.sound.failed entering stopped
    have none := inv.members.unopened (inv.sound.unopened (by rw [failed]; rfl))
    rw [body]
    refine ⟨rfl, fun c below => ?_, .inl (by rw [failed]; rfl)⟩
    have : c < s.accepted := below
    omega
  · rw [body] at alive ⊢
    obtain ⟨handlers, shuts⟩ :=
      shutdownAll_shuts { s with toControl := s.toControl.cancel ch } s.connSet alive
    have accepted :=
      (shutdownAll_frame { s with toControl := s.toControl.cancel ch } s.connSet).2.1
    obtain ⟨loop, channel, begun⟩ := await_frame (s.toControl.cancel ch)
    refine ⟨begun, fun c below => ?_, ?_⟩
    · rw [accepted] at below
      by_cases erased : (s.conn c).handler = .erased
      · rw [Conn.finished, ← handlers c]
        simp [erased]
      · exact .inr (shuts c (.inr (inv.members.set c below erased)))
    simp only [loop, channel]
    rcases inv.sound.opened_loop entering here with suspended | scheduled | ended
    · rw [inv.sound.cancel_suspended here suspended]
      exact .inr ⟨rfl, _, rfl, rfl⟩
    · exact absurd scheduled landed
    · rw [inv.sound.cancel_other here (by rw [ended]; exact nofun)]
      exact .inl (by rw [ended]; rfl)

structure Serves (s t : State) : Prop where
  run : ∃ more, exec State.step s more = some t
  alive : t.crashed = false
  accepted : t.accepted = s.accepted
  finished : ∀ c, (t.conn c).finished → (s.conn c).finished
  shut : ∀ c, (t.conn c).shut → (s.conn c).shut

namespace Serves
variable {s t u : State}

theorem refl (alive : s.crashed = false) : Serves s s :=
  ⟨⟨[], rfl⟩, alive, rfl, fun _ => id, fun _ => id⟩

theorem trans (first : Serves s t) (second : Serves t u) : Serves s u := by
  obtain ⟨more, done⟩ := first.run
  obtain ⟨more', done'⟩ := second.run
  exact ⟨⟨more ++ more', (exec_append done).trans done'⟩, second.alive,
    second.accepted.trans first.accepted, fun c => first.finished c ∘ second.finished c,
    fun c => first.shut c ∘ second.shut c⟩

theorem inv (serves : Serves s t) (inv : Inv s) : Inv t := by
  obtain ⟨more, done⟩ := serves.run
  exact inv.run (.of_exec done) serves.alive

theorem one (alive : s.crashed = false) (acted : s.act a = some t) (still : t.crashed = false)
    (accepted : t.accepted = s.accepted) (finished : ∀ c, (t.conn c).finished → (s.conn c).finished)
    (shut : ∀ c, (t.conn c).shut → (s.conn c).shut) : Serves s t := by
  refine ⟨⟨[a], ?_⟩, still, accepted, finished, shut⟩
  rw [exec, step_iff.mpr ⟨alive, acted⟩]
  rfl

theorem conn (alive : s.crashed = false) (acted : s.act a = some t) (still : t.crashed = false)
    (accepted : t.accepted = s.accepted) (conns : t.conn = update s.conn c k)
    (finished : k.finished → (s.conn c).finished) (shut : k.shut → (s.conn c).shut) :
    Serves s t := by
  refine .one alive acted still accepted (fun d => ?_) fun d => ?_ <;>
    rw [conns] <;> rcases eq_or_ne d c with rfl | other
  · rwa [update_self]
  · rw [update_of_ne other]
    exact id
  · rwa [update_self]
  · rw [update_of_ne other]
    exact id

theorem control {t : Control} (alive : s.crashed = false)
    (acted : s.act a = some { s with toControl := t }) : Serves s { s with toControl := t } :=
  .one alive acted alive rfl (fun _ => id) fun _ => id

theorem yield (alive : s.crashed = false) (user : s.current = some .user) :
    Serves s { s with current := none } :=
  .control (a := .yield) alive (if_pos user)

end Serves

theorem run_head {s : State} (free : s.current = none) (first : s.queue = handle :: rest) :
    s.act .run = some ({ s with queue := rest }.runHead handle) := by
  simp only [State.act, free, first]

theorem serves_entry {s : State} (inv : Inv s) (alive : s.crashed = false) (free : s.current = none)
    (first : s.queue = handle :: rest) (loop : handle ≠ .loop) (stop : handle ≠ .stop) :
    ∃ t, Serves s t ∧ t.toControl = { s.toControl with queue := rest } := by
  have acted := run_head free first
  have freed : { s.toControl with queue := rest, current := none } =
      { s.toControl with queue := rest } := by rw [← free]
  cases handle with
  | loop => exact absurd rfl loop
  | stop => exact absurd rfl stop
  | user =>
    have ran := Serves.control alive acted
    exact ⟨_, ran.trans (.yield alive rfl), freed⟩
  | spawn c =>
    have ran := Serves.conn alive acted alive rfl rfl nofun id
    exact ⟨_, ran.trans (.yield alive rfl), freed⟩
  | erase c =>
    have erases := inv.members.erases c
    rw [first, count_cons_self] at erases
    refine ⟨_, Serves.conn alive acted alive rfl rfl (fun _ => ?_) id, rfl⟩
    rw [Conn.finished, (Members.of_ends erases).2]
    rfl

theorem serves_until {s : State} (inv : Inv s) (alive : s.crashed = false) (free : s.current = none)
    (queue : s.queue = front ++ back) (loop : front.count .loop = 0)
    (stop : front.count .stop = 0) :
    ∃ t, Serves s t ∧ t.toControl = { s.toControl with queue := back } := by
  induction front generalizing s with
  | nil =>
    refine ⟨s, .refl alive, ?_⟩
    rw [← nil_append back, ← queue]
  | cons handle front ih =>
    have loop' : handle ≠ .loop := by
      rintro rfl
      simp at loop
    have stop' : handle ≠ .stop := by
      rintro rfl
      simp at stop
    rw [count_cons_of_ne loop'] at loop
    rw [count_cons_of_ne stop'] at stop
    obtain ⟨t, serves, control⟩ := serves_entry inv alive free queue loop' stop'
    obtain ⟨u, serves', control'⟩ := ih (serves.inv inv) serves.alive (by rw [control]; exact free)
      (by rw [control]; rfl) loop stop
    refine ⟨u, serves.trans serves', ?_⟩
    rw [control', control]

theorem split_queue {queue : List Handle} (one : queue.count handle = 1) :
    ∃ front back, queue = front ++ handle :: back ∧ front.count handle = 0 := by
  have mem : handle ∈ queue := count_pos_iff.mp (by omega)
  obtain ⟨front, back, rfl⟩ := append_of_mem mem
  refine ⟨front, back, rfl, ?_⟩
  rw [count_append, count_cons_self] at one
  omega

theorem count_front {queue front back : List Handle} (split : queue = front ++ back)
    (none : queue.count handle = 0) : front.count handle = 0 := by
  rw [split, count_append] at none
  omega

theorem serves_stop {s : State} (inv : Inv s) (alive : s.crashed = false)
    (user : s.current = some .user) (scheduled : s.stop = .scheduled) :
    ∃ t, Serves s t ∧ t.stop = .returned := by
  have yielded := Serves.yield alive user
  have finished : s.loop.finished := by
    rw [← inv.sound.done]
    exact inv.sound.resumed (by rw [scheduled]; rfl)
  have loops : s.queue.count .loop = 0 := by
    rw [inv.sound.loops]
    cases loop : s.loop <;> simp_all [LoopPC.finished, LoopPC.queued]
  have stops : s.queue.count .stop = 1 := by
    rw [inv.sound.stops, scheduled]
    rfl
  obtain ⟨front, back, split, none⟩ := split_queue stops
  obtain ⟨t, serves, control⟩ := serves_until (yielded.inv inv) alive rfl split
    (count_front split loops) none
  have stop : t.stop = .scheduled := by
    rw [control]
    exact scheduled
  have acted := run_head (by rw [control]) (by rw [control])
  have ran := Serves.control serves.alive acted
  refine ⟨_, (yielded.trans serves).trans ran, ?_⟩
  rw [runStop_returned (s := { t.toControl with queue := back }) stop]

theorem serves_loop {s : State} (inv : Inv s) (alive : s.crashed = false) (free : s.current = none)
    (waiting : s.stop = .waiting) (scheduled : s.loop = .scheduled) :
    ∃ t, Serves s t ∧ t.current = none ∧ t.stop = .waiting ∧ t.loop = .scheduled ∧
      t.listenChannel = s.listenChannel ∧ ∃ back, t.queue = .loop :: back := by
  have loops : s.queue.count .loop = 1 := by
    rw [inv.sound.loops, scheduled]
    rfl
  have stops : s.queue.count .stop = 0 := by
    rw [inv.sound.stops, waiting]
    rfl
  obtain ⟨front, back, split, none⟩ := split_queue loops
  obtain ⟨t, serves, control⟩ := serves_until inv alive free split none (count_front split stops)
  refine ⟨t, serves, ?_, ?_, ?_, ?_, back, ?_⟩ <;> rw [control]
  · exact free
  · exact waiting
  · exact scheduled

theorem endLoop_waiting {s : Control} (waiting : s.stop = .waiting) (ch : Channel Unit) :
    (s.endLoop ch).stop = .scheduled ∧ (s.endLoop ch).current = some .user := by
  unfold Control.endLoop Control.setStopPromise
  rw [if_pos waiting]
  exact ⟨rfl, rfl⟩

theorem returns_canceled {s : State} (inv : Inv s) (alive : s.crashed = false)
    (free : s.current = none) (waiting : s.stop = .waiting) (scheduled : s.loop = .scheduled)
    (here : s.listenChannel = some ch) (canceled : ch.readCanceled) :
    ∃ t, Serves s t ∧ t.stop = .returned := by
  obtain ⟨t, serves, free', waiting', scheduled', here', back, first⟩ :=
    serves_loop inv alive free waiting scheduled
  have acted := run_head free' first
  have ran := Serves.control serves.alive acted
  have control : Control.runLoop { t.toControl with queue := back } =
      Control.endLoop { t.toControl with queue := back } { ch with readCanceled := false } := by
    rw [runLoop_awaited (s := { t.toControl with queue := back }) scheduled' (here'.trans here)]
    exact if_pos canceled
  rw [control] at ran
  obtain ⟨stop, current⟩ := endLoop_waiting (s := { t.toControl with queue := back }) waiting'
    { ch with readCanceled := false }
  obtain ⟨u, serves', returned⟩ := serves_stop ((serves.trans ran).inv inv) ran.alive current stop
  exact ⟨u, (serves.trans ran).trans serves', returned⟩

/-- A loop that was not canceled accepts one more connection, which `stop()` does not see. -/
theorem returns_served {s : State} (inv : Inv s) (alive : s.crashed = false)
    (free : s.current = none) (waiting : s.stop = .waiting) (scheduled : s.loop = .scheduled)
    (here : s.listenChannel = some ch) (canceled : ch.readCanceled = false) :
    ∃ more t, exec State.step s more = some t ∧ t.stop = .returned ∧ ¬ t.Settled := by
  obtain ⟨t, serves, free', waiting', scheduled', here', back, first⟩ :=
    serves_loop inv alive free waiting scheduled
  have ran := Serves.control serves.alive (run_head free' first)
  have control : Control.runLoop { t.toControl with queue := back } =
      { t.toControl with queue := back, loop := .accepting, current := some .loop } := by
    rw [runLoop_awaited (s := { t.toControl with queue := back }) scheduled' (here'.trans here)]
    exact if_neg (by rw [canceled]; exact nofun)
  rw [control] at ran
  have before := serves.trans ran
  let u : State := { t with queue := back, loop := .accepting, current := some .loop }
  have accepts : u.step (.accept .success) = some (u.accept ch .success) := by
    refine step_iff.mpr ⟨serves.alive, ?_⟩
    simp only [State.act, u, here'.trans here]
  have inv' := (before.inv inv).step accepts nofun
  have stopped : u.stopped := (before.inv inv).sound.begun (by rw [waiting']; rfl)
  have ended : (u.accept ch .success).toControl =
      Control.endLoop { u.toControl with queue := back ++ [.spawn u.accepted] } ch := by
    exact if_pos stopped
  obtain ⟨stop, current⟩ := endLoop_waiting
    (s := { u.toControl with queue := back ++ [.spawn u.accepted] }) waiting' ch
  rw [← ended] at stop current
  obtain ⟨last, after, returned⟩ := serves_stop inv' serves.alive current stop
  obtain ⟨more, done⟩ := before.run
  obtain ⟨more', done'⟩ := after.run
  refine ⟨more ++ (.accept .success :: more'), last, ?_, returned, fun settled => ?_⟩
  · rw [exec_append done, exec, accepts]
    exact done'
  have new : (u.accept ch .success).conn u.accepted = {} := update_self ..
  have below : u.accepted < last.accepted := by
    rw [after.accepted]
    exact Nat.lt_succ_self _
  rcases settled.2 u.accepted below with finished | shut
  · have finished := after.finished _ finished
    rw [new] at finished
    cases finished
  · have shut := after.shut _ shut
    rw [new] at shut
    cases shut

theorem await_waiting {s : Control} (undone : s.done = false) :
    s.await = { s with stop := .waiting, current := none } :=
  if_neg (by rw [undone]; exact nofun)

/-- `stop()` finds the accept loop over and returns, or waits for a loop that is in the ready queue
now: canceled if it was suspended, and not canceled if it was there already. -/
def Outcome (s t : Control) : Prop :=
  t.stop = .returned ∧ s.loop ≠ .scheduled ∨
  t.stop = .waiting ∧ t.current = none ∧ t.loop = .scheduled ∧
    ∃ ch, t.listenChannel = some ch ∧ (ch.readCanceled = false ↔ s.loop = .scheduled)

theorem Sound.outcome {s : Control} (sound : Sound s) (entering : s.stop = .entering)
    (here : s.listenChannel = some ch) : Outcome s (s.cancel ch).await := by
  have done := sound.done
  rcases sound.opened_loop entering here with suspended | scheduled | ended
  · have canceled := sound.cancel_suspended here suspended
    have undone : (s.cancel ch).done = false := by
      rw [canceled, done, suspended]
      rfl
    rw [await_waiting undone, canceled]
    exact .inr ⟨rfl, rfl, rfl, _, rfl, by simp [suspended]⟩
  · have unseen := sound.cancel_other here (by rw [scheduled]; exact nofun)
    have undone : (s.cancel ch).done = false := by
      rw [unseen, done, scheduled]
      rfl
    have uncanceled := sound.uncanceled ch here (by rw [entering]; rfl)
    rw [await_waiting undone, unseen]
    exact .inr ⟨rfl, rfl, scheduled, _, rfl, fun _ => scheduled, fun _ => uncanceled⟩
  · have unseen := sound.cancel_other here (by rw [ended]; exact nofun)
    have finished : (s.cancel ch).done := by
      rw [unseen, done, ended]
      rfl
    rw [Control.await, if_pos finished]
    exact .inl ⟨rfl, by rw [ended]; exact nofun⟩

theorem stopBody_outcome {s : State} (inv : Inv s) (entering : s.stop = .entering)
    (alive : s.stopBody.crashed = false) : Outcome s.toControl s.stopBody.toControl := by
  obtain ⟨stopped, body⟩ | ⟨ch, here, body⟩ := stopBody_cases alive
  · rw [body]
    refine .inl ⟨rfl, fun scheduled => ?_⟩
    cases scheduled.symm.trans (inv.sound.failed entering stopped)
  · rw [body]
    exact inv.sound.outcome entering here

theorem wake_stop (s : Control) (woken : List Unit) : (s.wake woken).stop = s.stop := by
  cases woken <;> rfl

theorem stopBody_crashed {s : State} (alive : s.crashed = false) (crashed : s.stopBody.crashed) :
    s.stopBody.stop = s.stop := by
  unfold State.stopBody at crashed ⊢
  cases stopped : s.stopped with
  | true =>
    simp only [stopped] at crashed
    cases alive.symm.trans crashed
  | false =>
    simp only [stopped, Bool.false_eq_true, if_false] at crashed ⊢
    cases here : s.listenChannel with
    | none => rfl
    | some ch =>
      have control :=
        (shutdownAll_frame { s with toControl := s.toControl.cancel ch } s.connSet).1
      simp only [here] at crashed ⊢
      split
      · rw [control]
        exact wake_stop ..
      · rename_i fine
        rw [if_neg fine] at crashed
        exact absurd crashed fine

theorem run_crashed {s t : State} (crashed : s.crashed)
    (run : Run State.step free s labels t) : t = s := by
  apply run.invariant (P := fun t => t = s) rfl
  rintro t u action rfl - took
  cases crashed.symm.trans (step_iff.mp took).1

/-- `stop()` is about to dereference a null pointer: `start()` has not made the channel, or a
connection of the set was closed by force. -/
def State.Dangling (s : State) : Prop :=
  s.stopped = false ∧ (s.listenChannel = none ∨ ∃ c ∈ s.connSet, (s.conn c).channel = false)

theorem shutdown_channel (conn : Conn) : (conn.shutdown = none ↔ conn.channel = false) ∧
      ∀ conn', conn.shutdown = some conn' → conn'.channel = conn.channel := by
  obtain ⟨state, channel, handler, shut⟩ := conn
  cases channel with
  | false => exact ⟨iff_of_true rfl rfl, nofun⟩
  | true => cases state <;> simp [Conn.shutdown]

theorem shutdownAll_crashed_iff (s : State) (conns : List Nat) (alive : s.crashed = false) :
    (s.shutdownAll conns).crashed ↔ ∃ c ∈ conns, (s.conn c).channel = false := by
  induction conns generalizing s with
  | nil => simp [State.shutdownAll, alive]
  | cons c conns ih =>
    obtain ⟨fails, kept⟩ := shutdown_channel (s.conn c)
    cases shut : (s.conn c).shutdown with
    | none =>
      simp only [State.shutdownAll, shut]
      exact iff_of_true rfl ⟨c, mem_cons_self, fails.mp shut⟩
    | some conn =>
      let next := s.setConn c { conn with shut := true }
      have same (d : Nat) : (next.conn d).channel = (s.conn d).channel := by
        by_cases own : d = c
        · rw [own, ← kept conn shut, show next.conn c = _ from update_self ..]
        · exact congrArg Conn.channel (update_of_ne own ..)
      have here : ¬(s.conn c).channel = false := fun gone => nomatch (fails.mpr gone).symm.trans shut
      have rest := ih next alive
      simp only [same] at rest
      simp only [State.shutdownAll, shut, mem_cons, exists_eq_or_imp]
      exact rest.trans (or_iff_right here).symm

theorem stopBody_crashed_iff {s : State} (alive : s.crashed = false) :
    s.stopBody.crashed ↔ s.Dangling := by
  unfold State.stopBody State.Dangling
  cases stopped : s.stopped with
  | true => simp [alive]
  | false =>
    cases here : s.listenChannel with
    | none => simp [State.crash]
    | some ch =>
      simp only [Bool.false_eq_true, if_false, true_and, reduceCtorEq, false_or]
      rw [← shutdownAll_crashed_iff { s with toControl := s.toControl.cancel ch } s.connSet alive]
      split
      · rfl
      · rfl

/-- For every point of a run at which `stop()` runs: whenever it has returned the server is settled,
exactly if the accept loop was not in the ready queue or `stop()` crashes; and unless it crashes it
can return. -/
theorem stop_settles_iff (run : Reaches labels s) (stepped : s.step .stop = some t) :
    ((∀ more u, Run State.step free t more u → u.stop = .returned →
        u.Settled) ↔ (s.loop = .scheduled → s.Dangling)) ∧
    (¬s.Dangling → ∃ more u, exec State.step t more = some u ∧
      u.stop = .returned) := by
  obtain ⟨alive, acted⟩ := step_iff.mp stepped
  have inv := Inv.start.run run alive
  obtain ⟨entering, rfl⟩ := of_ite acted
  rw [← stopBody_crashed_iff alive]
  cases alive' : s.stopBody.crashed with
  | true =>
    refine ⟨⟨fun _ _ => rfl, fun _ more u later returned => ?_⟩, fun fine => absurd rfl fine⟩
    rw [run_crashed alive' later, stopBody_crashed alive alive', entering] at returned
    cases returned
  | false =>
    have inv' := inv.step stepped fun _ => alive'
    have outcome := stopBody_outcome inv entering alive'
    refine ⟨⟨fun settles scheduled => ?_, fun landed more u later returned => ?_⟩, fun _ => ?_⟩
    · obtain ⟨-, other⟩ | ⟨waiting, free, queued, ch, here, canceled⟩ := outcome
      · exact absurd scheduled other
      · obtain ⟨more, u, done, returned, open_⟩ :=
          returns_served inv' alive' free waiting queued here (canceled.mpr scheduled)
        exact absurd (settles more u (.of_exec done) returned) open_
    · have unscheduled : s.loop ≠ .scheduled := fun scheduled => by cases landed scheduled
      have after := (closing_of_stop inv entering alive' unscheduled).run inv' later
      exact after.1.settled after.2 returned
    obtain ⟨returned, -⟩ | ⟨waiting, free, queued, ch, here, -⟩ := outcome
    · exact ⟨[], _, rfl, returned⟩
    cases marked : ch.readCanceled with
    | true =>
      obtain ⟨u, serves, returned⟩ :=
        returns_canceled inv' alive' free waiting queued here marked
      obtain ⟨more, done⟩ := serves.run
      exact ⟨more, u, done, returned⟩
    | false =>
      obtain ⟨more, u, done, returned, -⟩ :=
        returns_served inv' alive' free waiting queued here marked
      exact ⟨more, u, done, returned⟩

/-- The server has accepted one connection, whose handler waits, and the accept loop is suspended
again. -/
def oneConnection : List Action :=
  [.wake, .run, .awaitStart, .start true, .deliver { input := true }, .run, .accept .success,
    .accept .again, .run, .yield]

def handlerStops : List Action := oneConnection ++ [.wake, .run, .awaitStop]

theorem stop_settles_iff_handler :
    ∃ s t, exec State.step {} handlerStops = some s ∧ s.step .stop = some t ∧
      s.loop = .suspended ∧
      (∀ more u, Run State.step free t more u → u.stop = .returned →
        u.Settled) ∧
      ∃ more u, exec State.step t more = some u ∧ u.stop = .returned := by
  have ends : ∃ s, exec State.step {} handlerStops = some s ∧ s.loop = .suspended ∧
      s.stop = .entering ∧ s.crashed = false ∧ s.stopBody.crashed = false :=
    exec_any (by decide)
  obtain ⟨s, done, suspended, entering, alive, alive'⟩ := ends
  have stepped : s.step .stop = some s.stopBody := step_iff.mpr ⟨alive, if_pos entering⟩
  have both := stop_settles_iff (.of_exec done) stepped
  refine ⟨s, s.stopBody, done, stepped, suspended, both.1.mpr fun scheduled => ?_, both.2 ?_⟩
  · cases suspended.symm.trans scheduled
  · rw [← stopBody_crashed_iff alive, alive']
    exact Bool.false_ne_true

/-- One `epoll_wait` reports the first connection and then the listening socket. The handler of the
first connection calls `stop()`, and the accept loop, which is behind it in the ready queue, accepts
another connection. -/
def acceptedMeanwhile : List Action :=
  oneConnection ++ [.wake, .deliver { input := true }, .run, .awaitStop, .stop, .run,
    .accept .success, .yield, .run, .yield, .run]

theorem stop_leaves_connection :
    ∃ s, exec State.step {} acceptedMeanwhile = some s ∧ s.stop = .returned ∧
      s.accepted = 2 ∧ (s.conn 1).handler = .running ∧ (s.conn 1).state = .connected ∧
      (s.conn 1).shut = false :=
  exec_any (by decide)

/-- In every run that has not crashed, the set has each connection whose coroutine is not over, and
the ready queue has each coroutine once that is to be started or to erase its connection. The stop
promise is set exactly if the accept loop is over; the loop has no handle then that could set it
again. -/
theorem connections_tracked (run : Reaches labels s) (alive : s.crashed = false) :
    (∀ c ∈ s.connSet, c < s.accepted) ∧
    (∀ c < s.accepted, ((s.conn c).handler ≠ .erased → c ∈ s.connSet) ∧
      s.queue.count (.spawn c) = (if (s.conn c).handler = .spawned then 1 else 0) ∧
      s.queue.count (.erase c) = if (s.conn c).handler = .returned then 1 else 0) ∧
    (s.done ↔ s.loop = .ended ∨ s.loop = .failed) ∧ (s.done → s.queue.count .loop = 0) := by
  obtain ⟨sound, members⟩ := Inv.start.run run alive
  refine ⟨members.bounded, fun c below => ⟨members.set c below, ?_, ?_⟩, ?_, fun done => ?_⟩
  · rw [members.spawns c below]
    cases (s.conn c).handler <;> rfl
  · rw [members.erases c]
    cases (s.conn c).handler <;> rfl
  · rw [sound.done]
    cases s.loop <;> simp [finished]
  · rw [sound.done] at done
    rw [sound.loops]
    cases at_ : s.loop <;> simp_all [finished, queued]

theorem connections_tracked_one : ∃ s, exec State.step {} oneConnection = some s ∧
    s.connSet = [0] ∧ s.queue.count (.spawn 0) = 0 := by
  have ends : ∃ s, exec State.step {} oneConnection = some s ∧ s.crashed = false ∧
      s.connSet = [0] ∧ 0 < s.accepted ∧ (s.conn 0).handler = .running := exec_any (by decide)
  obtain ⟨s, done, alive, tracked, below, running⟩ := ends
  have counts := (connections_tracked (.of_exec done) alive).2.1 0 below
  exact ⟨s, done, tracked, by rw [counts.2.1, running]; rfl⟩

end Nitrocoro.Net.TcpServer
