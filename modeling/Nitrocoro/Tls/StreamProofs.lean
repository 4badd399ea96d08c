import Nitrocoro.Tls.Stream

/-! What the socket gets from a `TlsStream`: the output of the provider in order and in full, as
long as no flush puts bytes on the wire before an earlier one is through, none has to wait for the
socket while another one waits, and the connection is shut down when all is sent. -/
namespace Nitrocoro.Tls
open Text Io Transition State

namespace State
variable {Id : Type} {s t : State Id} {i : Id}

def Sleeps (i : Id) (s : State Id) : Prop := ∃ next, s.pc i = .flushing .suspended next

def SameSleep (s t : State Id) : Prop :=
  t.channel.writableWaiter = s.channel.writableWaiter ∧
    t.channel.readableWaiter = s.channel.readableWaiter ∧ ∀ i, t.Sleeps i ↔ s.Sleeps i

def Goes (l l' : Lane Id UInt8) : Prop := (l.Whole → l'.Whole) ∧ l'.wire = l.wire

/-- Nothing waits to be sent: no output is held, and no flush is unfinished. -/
def Settled (s : State Id) : Prop :=
  s.link.held = [] ∧ ∀ piece ∈ s.link.pieces, piece.owner = none

/-- The connection was shut down, and output that was not sent is lost with it. -/
def Cut (s : State Id) : Prop := s.shutWrite = true ∧ ¬ s.Settled

theorem cut_congr (link : t.link = s.link) (shut : t.shutWrite = s.shutWrite) : t.Cut ↔ s.Cut := by
  rw [Cut, Cut, Settled, Settled, link, shut]

theorem Goes.refl (l : Lane Id UInt8) : Goes l l := ⟨id, rfl⟩

theorem not_sleeps {place : PC} (here : s.pc i = place)
    (runs : ∀ next, place ≠ .flushing .suspended next) : ¬ s.Sleeps i := by
  rintro ⟨next, at_⟩
  exact runs next (here.symm.trans at_)

theorem Waits.awake (here : s.pc i = .flushing stage next) (waits : s.Waits stage) : ¬ s.Sleeps i :=
  not_sleeps here fun _ same => by
    cases same
    cases waits.1

/-- Output that is produced is cut off if the connection was shut down before. -/
theorem cut_produce (cipher : Bytes) (link : t.link = s.link.produce cipher)
    (shut : t.shutWrite = s.shutWrite) : t.Cut ↔ s.Cut ∨ ¬ (s.shutWrite = true → cipher = []) := by
  have settled : t.Settled ↔ s.Settled ∧ cipher = [] := by
    simp only [Settled, link, Lane.produce, List.append_eq_nil_iff, List.zipIdx_eq_nil_iff]
    tauto
  simp only [Cut, shut, settled]
  tauto

theorem handleIoEvents_waiter (ch : Channel Id) (ev : Events) (noReader : ch.readableWaiter = none) :
    (ch.handleIoEvents ev).1.readableWaiter = none ∧
      ((ch.handleIoEvents ev).2 = [] ∧
          (ch.handleIoEvents ev).1.writableWaiter = ch.writableWaiter ∨
        (ch.handleIoEvents ev).2 = ch.writableWaiter.toList ∧
          (ch.handleIoEvents ev).1.writableWaiter = none) := by
  obtain ⟨error, input, output⟩ := ev
  cases error <;> cases input <;> cases output <;>
    simp [Channel.handleIoEvents, Channel.wakeReader, Channel.wakeWriter, noReader]

/-- The stream as it should be: the link is whole and not cut, and the flush that sleeps has its
handle in the channel. -/
structure Inv (s : State Id) : Prop where
  whole : s.link.Whole
  awaited : ∀ i, s.Sleeps i → s.channel.writableWaiter = some i
  sleeps : ∀ i, s.channel.writableWaiter = some i → s.Sleeps i
  uncut : ¬ s.Cut

/-- Bytes are mixed up on the wire, a flush sleeps that nobody can wake up, or output is cut off. -/
def Broken (s : State Id) : Prop :=
  s.link.Mixed ∨ (∃ i, s.Sleeps i ∧ s.channel.writableWaiter ≠ some i) ∨ s.Cut

theorem SameSleep.inv (same : SameSleep s t) (inv : s.Inv) (whole : t.link.Whole)
    (uncut : ¬ t.Cut) : t.Inv where
  whole := whole
  uncut := uncut
  awaited i sleeps := same.1.trans (inv.awaited i ((same.2.2 i).mp sleeps))
  sleeps i waits := (same.2.2 i).mpr (inv.sleeps i (same.1.symm.trans waits))

theorem SameSleep.broken (same : SameSleep s t) (broken : s.Broken)
    (grows : s.link.wire <+: t.link.wire) (cut : s.Cut → t.Cut) : t.Broken := by
  rcases broken with mixed | ⟨i, sleeps, lost⟩ | gone
  · exact .inl (mixed.grow grows)
  · exact .inr (.inl ⟨i, (same.2.2 i).mpr sleeps, by rwa [same.1]⟩)
  · exact .inr (.inr (cut gone))

/-- The socket gets the output of the provider in order, all of it once no flush is unfinished, every
flush that waits for the socket is going to be woken up, and none was cut off by the shutdown of the
connection. -/
structure Delivered (s : State Id) : Prop where
  ordered : s.link.wire <+: s.link.produced.zipIdx
  complete : s.link.pieces = [] → s.link.held = [] → s.link.wire = s.link.produced.zipIdx
  awaited : ∀ i, s.Sleeps i → s.channel.writableWaiter = some i
  uncut : ¬ s.Cut

theorem Inv.delivered (inv : s.Inv) : s.Delivered where
  ordered := inv.whole.ordered
  complete none nothing := by
    have all := inv.whole.all
    rw [none, nothing] at all
    simpa using all
  awaited := inv.awaited
  uncut := inv.uncut

theorem Broken.not_delivered (broken : s.Broken) : ¬ s.Delivered := by
  intro delivered
  rcases broken with mixed | ⟨i, sleeps, lost⟩ | gone
  · exact mixed.not_ordered delivered.ordered
  · exact lost (delivered.awaited i sleeps)
  · exact delivered.uncut gone

theorem inv_start (plainBuf : Bytes) (writable : Bool) :
    (start plainBuf writable : State Id).Inv where
  whole := ⟨rfl, nofun⟩
  awaited _ := nofun
  sleeps _ := nofun
  uncut gone := absurd gone.1 Bool.false_ne_true

variable [DecidableEq Id]

theorem sameSleep_goto (awake : ¬ s.Sleeps i) (pc : PC)
    (runs : ∀ next, pc ≠ .flushing .suspended next) : SameSleep s (s.goto i pc) := by
  refine ⟨rfl, rfl, fun j => ?_⟩
  by_cases same : j = i
  · subst same
    refine iff_of_false ?_ awake
    rintro ⟨next, at_⟩
    exact runs next (by simpa [goto] using at_)
  · simp [Sleeps, goto, Function.update_of_ne same]

theorem sameSleep_readLoop (awake : ¬ s.Sleeps i) (len : Nat) : SameSleep s (s.readLoop i len) := by
  unfold readLoop
  split
  · exact sameSleep_goto awake _ nofun
  · exact sameSleep_goto awake _ nofun

theorem link_readLoop (i : Id) (len : Nat) (s : State Id) :
    (s.readLoop i len).link = s.link ∧ (s.readLoop i len).shutWrite = s.shutWrite := by
  unfold readLoop
  split <;> exact ⟨rfl, rfl⟩

theorem sameSleep_unlock (awake : ¬ s.Sleeps i) : SameSleep s (s.unlock i) :=
  sameSleep_goto awake _ nofun

theorem resume_spec (awake : ¬ s.Sleeps i) (ok : Bool) (next : Continuation) :
    SameSleep s (s.resume i ok next) ∧ (s.resume i ok next).link = s.link ∧
      (s.resume i ok next).shutWrite = s.shutWrite := by
  cases next with
  | feed len result =>
    simp only [resume]
    split
    · exact ⟨sameSleep_readLoop (s := { s with eof := true }) awake len, link_readLoop ..⟩
    split
    · exact ⟨sameSleep_goto awake _ nofun, rfl, rfl⟩
    · exact ⟨sameSleep_readLoop (s := { s with eof := s.eof || result == FeedResult.eof }) awake len,
        link_readLoop ..⟩
  | write left n =>
    simp only [resume]
    split
    · exact ⟨sameSleep_unlock awake, rfl, rfl⟩
    · exact ⟨sameSleep_goto awake _ nofun, rfl, rfl⟩
  | shutdown => exact ⟨sameSleep_goto awake _ nofun, rfl, rfl⟩

theorem unwind_spec (awake : ¬ s.Sleeps i) (next : Continuation) :
    SameSleep s (s.unwind i next) ∧ (s.unwind i next).link = s.link ∧
      (s.unwind i next).shutWrite = s.shutWrite := by
  cases next with
  | write left n => exact ⟨sameSleep_unlock awake, rfl, rfl⟩
  | _ => exact ⟨sameSleep_goto awake _ nofun, rfl, rfl⟩

theorem flushEncrypted_spec (awake : ¬ s.Sleeps i) (next : Continuation) (cipher : Bytes) :
    let t := { s with link := s.link.produce cipher }.flushEncrypted i next
    SameSleep s t ∧ Goes s.link t.link ∧ (t.Cut ↔ s.Cut ∨ ¬ (s.shutWrite = true → cipher = [])) := by
  simp only [flushEncrypted]
  split
  · obtain ⟨same, link, shut⟩ :=
      resume_spec (s := { s with link := s.link.produce cipher }) awake true next
    refine ⟨same, ?_, cut_produce cipher link shut⟩
    rw [link]
    exact ⟨fun whole => whole.produce cipher, rfl⟩
  · rename_i some
    refine ⟨sameSleep_goto awake _ nofun, ⟨fun whole => ?_, rfl⟩, ?_⟩
    · exact (whole.produce cipher).begin some i
    · rw [← cut_produce (t := { s with link := s.link.produce cipher }) cipher rfl rfl, Cut, Cut]
      -- what was held is now the output of an unfinished flush
      have held : ¬ Settled { s with link := s.link.produce cipher } :=
        fun settled => some settled.1
      have begun : ¬ Settled { s with link := (s.link.produce cipher).begin i } := by
        rintro ⟨-, owners⟩
        have owner := owners ⟨Option.some i, _⟩ (List.mem_append_right _ List.mem_cons_self)
        cases owner
      exact and_congr_right fun _ => iff_of_true begun held

/-- A flush that cannot go on waits only if no other one does, and bytes go out only from the flush
that began first. The connection is shut down only when nothing waits to be sent, and nothing is
produced after that. -/
def InTurn (s : State Id) : Action Id → Prop
  | .put i answer =>
    match s.pc i with
    | .flushing stage _ =>
      if s.Waits stage then s.channel.writableWaiter = none
      else (∃ n, answer = .wrote n) → s.link.Oldest i
    | _ => True
  | .close _ => s.tcp = .connected ∨ s.tcp = .peerShutdown → s.Settled
  | .shutdown _ cipher | .receive _ (.fed _ cipher _) | .encrypt _ _ cipher =>
    s.shutWrite = true → cipher = []
  | _ => True

def wakes (ev : Events) (s : State Id) : State Id :=
  (s.channel.handleIoEvents ev).2.foldl wake { s with channel := (s.channel.handleIoEvents ev).1 }

/-- What a step can do to the wire and to the flushes that wait: nothing, send bytes of a flush,
put a flush to sleep, or wake one up. -/
inductive Effect (s : State Id) : Action Id → State Id → Prop where
  | none {u : State Id} : SameSleep s u → Goes s.link u.link → (u.Cut ↔ s.Cut ∨ ¬ s.InTurn a) →
      Effect s a u
  | sends {u : State Id} {j : Id} : SameSleep s u → s.pc j = .flushing stage next →
      ¬ s.Waits stage → s.link.send j n = some (u.link, through) → s.shutWrite = false →
      u.shutWrite = false → Effect s (.put j (.wrote n)) u
  | sleeps {j : Id} : s.pc j = .flushing stage next → s.Waits stage →
      Effect s (.put j answer) (s.suspend j next)
  | wakes : Effect s (.events ev) (wakes ev s)

theorem Effect.of_link {a : Action Id} (same : SameSleep s t) (link : t.link = s.link)
    (shut : t.shutWrite = s.shutWrite) (turn : s.InTurn a) : Effect s a t := by
  refine .none same ?_ ?_
  · rw [link]
    exact .refl _
  · rw [cut_congr link shut, or_iff_left (not_not.mpr turn)]

theorem receive_effect (awake : ¬ s.Sleeps i) (len : Nat) (received : Received) :
    Effect s (.receive i received) (s.receive i len received) := by
  cases received with
  | closed =>
    obtain ⟨link, shut⟩ := link_readLoop i len
      { s with tcp := if s.tcp = .localShutdown then .closed else .peerShutdown, eof := true }
    exact .of_link (sameSleep_readLoop (s := { s with tcp := _, eof := true }) awake len) link shut
      trivial
  | failed => exact .of_link (sameSleep_goto awake _ nofun) rfl rfl trivial
  | fed plain cipher result =>
    obtain ⟨same, goes, cut⟩ :=
      flushEncrypted_spec (s := { s with plainBuf := s.plainBuf ++ plain }) awake
        (.feed len result) cipher
    exact .none same goes cut

theorem encrypt_effect (awake : ¬ s.Sleeps i) (left : Nat) (n : Int) (cipher : Bytes) :
    Effect s (.encrypt i n cipher) (s.encrypt i left n cipher) := by
  simp only [encrypt]
  split
  · refine .none (sameSleep_unlock awake) ?_ (cut_produce cipher rfl rfl)
    exact ⟨fun whole => whole.produce cipher, rfl⟩
  · obtain ⟨same, goes, cut⟩ := flushEncrypted_spec awake (.write left n.toNat) cipher
    exact .none same goes cut

theorem close_effect (awake : ¬ s.Sleeps i) : Effect s (.close i) (s.close i) := by
  unfold close
  split
  · rename_i tcp
    exact .of_link (sameSleep_goto awake _ nofun) rfl rfl (by simp [InTurn, tcp])
  · rename_i tcp
    exact .of_link (sameSleep_goto awake _ nofun) rfl rfl (by simp [InTurn, tcp])
  · rename_i tcp
    refine .none (sameSleep_goto awake _ nofun) (.refl _) ?_
    simp [InTurn, tcp, Cut, Settled, goto]
  · rename_i tcp
    refine .none (sameSleep_goto awake _ nofun) (.refl _) ?_
    simp [InTurn, tcp, Cut, Settled, goto]

theorem giveUp_spec (s : State Id) (i : Id) :
    Goes s.link (s.giveUp i) ∧ (Cut { s with link := s.giveUp i } ↔ s.Cut) := by
  unfold giveUp
  split
  · exact ⟨.refl _, Iff.rfl⟩
  · rename_i opened
    refine ⟨⟨fun whole => whole.abandon i, s.link.wire_abandon i⟩, ?_⟩
    exact iff_of_false (fun cut => opened cut.1) (fun cut => opened cut.1)

theorem callWriter_effect (here : s.pc i = .flushing stage next) (runs : stage ≠ .suspended)
    (ready : ¬ s.Waits stage) (called : s.callWriter i next answer = some t) :
    Effect s (.put i answer) t := by
  have awake : ¬ s.Sleeps i := by
    rintro ⟨next', at_⟩
    rw [here] at at_
    cases at_
    exact runs rfl
  have idle : (∀ n, answer ≠ .wrote n) → s.InTurn (.put i answer) := by
    intro other
    simp only [InTurn, here, if_neg ready]
    rintro ⟨n, same⟩
    exact absurd same (other n)
  have fails : ∀ {t : State Id}, (∀ n, answer ≠ .wrote n) → SameSleep s t →
      t.link = s.giveUp i → t.shutWrite = s.shutWrite → Effect s (.put i answer) t := by
    intro t other same link shut
    obtain ⟨goes, cut⟩ := s.giveUp_spec i
    refine .none same (link ▸ goes) ?_
    rw [or_iff_left (not_not.mpr (idle other)), ← cut]
    exact cut_congr link shut
  cases answer with
  | wrote n =>
    simp only [callWriter] at called
    split at called
    · cases called
    rename_i opened
    rw [Bool.not_eq_true] at opened
    split at called
    · cases called
    · rename_i link sent
      cases called
      obtain ⟨same, kept, shut⟩ := resume_spec
        (s := { s with link, channel := { s.channel with writing := false } }) awake true next
      have through : s.link.send i n = some ((resume i true
          { s with link, channel := { s.channel with writing := false } } next).link, true) := by
        rw [kept]
        exact sent
      exact .sends same here ready through opened (shut.trans opened)
    · rename_i link sent
      cases called
      refine .sends ?_ here ready sent opened opened
      exact sameSleep_goto awake _ (by simp)
  | again | interrupted =>
    cases called
    exact .of_link (sameSleep_goto awake _ (by simp)) rfl rfl (idle nofun)
  | closed =>
    cases called
    obtain ⟨same, kept, shut⟩ := resume_spec
      (s := { s with tcp := .closed, link := s.giveUp i }) awake false next
    exact fails nofun same kept shut
  | failed =>
    cases called
    obtain ⟨same, kept, shut⟩ := unwind_spec
      (s := { s with tcp := .closed, link := s.giveUp i }) awake next
    exact fails nofun same kept shut

theorem step_effect {a : Action Id} (took : s.step a = some t) : Effect s a t := by
  cases a with
  | read i len =>
    obtain ⟨here, rfl⟩ := of_ite took
    obtain ⟨link, shut⟩ := link_readLoop i len s
    exact .of_link (sameSleep_readLoop (not_sleeps here nofun) len) link shut trivial
  | write i len =>
    simp only [step] at took
    split at took
    · cases took
    rename_i here
    split at took <;> cases took
    · exact .of_link ⟨rfl, rfl, fun _ => Iff.rfl⟩ rfl rfl trivial
    · exact .of_link (sameSleep_goto (not_sleeps (not_not.mp here) nofun) _ nofun) rfl rfl trivial
  | shutdown i cipher =>
    obtain ⟨here, rfl⟩ := of_ite took
    obtain ⟨same, goes, cut⟩ := flushEncrypted_spec (not_sleeps here nofun) .shutdown cipher
    exact .none same goes cut
  | receive i received =>
    simp only [step] at took
    split at took <;> cases took
    rename_i len here
    exact receive_effect (not_sleeps here nofun) len received
  | lock i =>
    simp only [step] at took
    split at took <;> cases took
    rename_i len here _
    exact .of_link (sameSleep_goto (not_sleeps here nofun) _ nofun) rfl rfl trivial
  | encrypt i n cipher =>
    simp only [step] at took
    split at took <;> cases took
    rename_i left here
    exact encrypt_effect (not_sleeps here nofun) left n cipher
  | put i answer =>
    simp only [step] at took
    split at took
    · cases took
    · rename_i stage next awake here
      split at took
      · rename_i waits
        cases took
        exact .sleeps here waits
      · rename_i ready
        exact callWriter_effect here awake ready took
    · cases took
  | close i =>
    obtain ⟨here, rfl⟩ := of_ite took
    exact close_effect (not_sleeps here nofun)
  | events ev =>
    cases took
    exact .wakes

theorem wake_pc {s : State Id} (other : j ≠ i) : (s.wake i).pc j = s.pc j := by
  unfold wake
  split
  · exact Function.update_of_ne other _ _
  · rfl

theorem wake_awake (s : State Id) (i : Id) : ¬ (s.wake i).Sleeps i := by
  unfold wake
  split
  · exact not_sleeps (Function.update_self _ _ _) nofun
  · rename_i other
    rintro ⟨next, sleeps⟩
    exact other next sleeps

theorem wake_link (s : State Id) (i : Id) :
    (s.wake i).link = s.link ∧ (s.wake i).channel = s.channel ∧ (s.wake i).shutWrite = s.shutWrite := by
  unfold wake
  split <;> exact ⟨rfl, rfl, rfl⟩

theorem sleeps_suspend : (s.suspend i next).Sleeps j ↔ j = i ∨ s.Sleeps j := by
  by_cases same : j = i
  · subst same
    simp [Sleeps, suspend, goto]
  · simp [Sleeps, suspend, goto, same]

theorem Inv.suspend (inv : s.Inv) (free : s.channel.writableWaiter = none) (i : Id)
    (next : Continuation) : (s.suspend i next).Inv where
  whole := inv.whole
  uncut := inv.uncut
  awaited j sleeps := by
    rcases sleeps_suspend.mp sleeps with rfl | earlier
    · rfl
    · have waits := inv.awaited j earlier
      rw [free] at waits
      cases waits
  sleeps j waits := by
    cases waits
    exact sleeps_suspend.mpr (.inl rfl)

theorem broken_suspend (awake : ¬ s.Sleeps i) (sleeps : s.Sleeps j) (next : Continuation) :
    (s.suspend i next).Broken := by
  refine .inr (.inl ⟨j, sleeps_suspend.mpr (.inr sleeps), ?_⟩)
  rintro same
  cases same
  exact awake sleeps

theorem wakes_cases (noReader : s.channel.readableWaiter = none) (ev : Events) :
    (wakes ev s).link = s.link ∧ ((wakes ev s).Cut ↔ s.Cut) ∧
    (wakes ev s).channel.readableWaiter = none ∧
    ((wakes ev s).pc = s.pc ∧ (wakes ev s).channel.writableWaiter = s.channel.writableWaiter ∨
      (wakes ev s).channel.writableWaiter = none ∧
        (∀ j, s.channel.writableWaiter = some j → ¬ (wakes ev s).Sleeps j) ∧
        ∀ j, s.channel.writableWaiter ≠ some j → (wakes ev s).pc j = s.pc j) := by
  obtain ⟨reader, ⟨nobody, kept⟩ | ⟨woken, cleared⟩⟩ :=
    handleIoEvents_waiter s.channel ev noReader
  · unfold wakes
    rw [nobody]
    exact ⟨rfl, Iff.rfl, reader, .inl ⟨rfl, kept⟩⟩
  unfold wakes
  rw [woken]
  cases waiter : s.channel.writableWaiter with
  | none => exact ⟨rfl, Iff.rfl, reader, .inr ⟨cleared, nofun, fun j _ => rfl⟩⟩
  | some i =>
    simp only [Option.toList_some, List.foldl_cons, List.foldl_nil]
    obtain ⟨link, channel, shut⟩ := wake_link { s with channel := (s.channel.handleIoEvents ev).1 } i
    refine ⟨link, cut_congr link shut, by rw [channel]; exact reader,
      .inr ⟨by rw [channel]; exact cleared, ?_, ?_⟩⟩
    · rintro j same
      cases same
      exact wake_awake _ i
    · intro j other
      exact wake_pc (fun same => other (congrArg some same.symm))

theorem Inv.wakes (inv : s.Inv) (noReader : s.channel.readableWaiter = none) (ev : Events) :
    (wakes ev s).Inv := by
  obtain ⟨link, cut, -, ⟨pcs, kept⟩ | ⟨cleared, woken, others⟩⟩ := wakes_cases noReader ev
  · have uncut : ¬ (State.wakes ev s).Cut := fun gone => inv.uncut (cut.mp gone)
    refine SameSleep.inv (s := { s with channel := (State.wakes ev s).channel }) ⟨rfl, rfl, ?_⟩
      ⟨inv.whole, ?_, ?_, inv.uncut⟩ (link ▸ inv.whole) uncut
    · intro i
      simp only [Sleeps, pcs]
    · intro i sleeps
      exact kept.trans (inv.awaited i sleeps)
    · intro i waits
      exact inv.sleeps i (kept.symm.trans waits)
  · have nobody : ∀ j, ¬ (State.wakes ev s).Sleeps j := by
      intro j sleeps
      by_cases waits : s.channel.writableWaiter = some j
      · exact woken j waits sleeps
      · obtain ⟨next, at_⟩ := sleeps
        exact waits (inv.awaited j ⟨next, (others j waits).symm.trans at_⟩)
    refine ⟨link ▸ inv.whole, fun j sleeps => absurd sleeps (nobody j), fun j waits => ?_,
      fun gone => inv.uncut (cut.mp gone)⟩
    rw [cleared] at waits
    cases waits

theorem Broken.wakes (broken : s.Broken) (noReader : s.channel.readableWaiter = none) (ev : Events) :
    (wakes ev s).Broken := by
  obtain ⟨link, cut, -, moved⟩ := wakes_cases noReader ev
  rcases broken with mixed | ⟨i, ⟨next, at_⟩, lost⟩ | gone
  · exact .inl (link ▸ mixed)
  rotate_left
  · exact .inr (.inr (cut.mpr gone))
  refine .inr (.inl ⟨i, ⟨next, ?_⟩, ?_⟩)
  · rcases moved with ⟨pcs, -⟩ | ⟨-, -, others⟩
    · rw [pcs, at_]
    · rw [others i lost, at_]
  · rcases moved with ⟨-, kept⟩ | ⟨cleared, -⟩
    · rwa [kept]
    · rw [cleared]
      nofun

theorem step_noReader (took : s.step a = some t) (noReader : s.channel.readableWaiter = none) :
    t.channel.readableWaiter = none := by
  cases step_effect took with
  | none same _ _ | sends same _ _ _ _ _ => exact same.2.1.trans noReader
  | sleeps _ _ => exact noReader
  | wakes => exact (wakes_cases noReader _).2.2.1

theorem Inv.step (inv : s.Inv) (noReader : s.channel.readableWaiter = none)
    (took : s.step a = some t) : t.Inv ∧ s.InTurn a ∨ t.Broken ∧ ¬ s.InTurn a := by
  cases step_effect took with
  | none same goes cut =>
    by_cases turn : s.InTurn a
    · refine .inl ⟨same.inv inv (goes.1 inv.whole) fun gone => ?_, turn⟩
      exact (cut.mp gone).elim inv.uncut fun early => early turn
    · exact .inr ⟨.inr (.inr (cut.mpr (.inr turn))), turn⟩
  | @sends stage next n through _ i same here ready sent opened opened' =>
    have turn : s.InTurn (.put i (.wrote n)) ↔ s.link.Oldest i := by
      simp [InTurn, here, ready]
    by_cases oldest : s.link.Oldest i
    · have uncut : ¬ t.Cut := fun gone => by simp [gone.1] at opened'
      exact .inl ⟨same.inv inv (inv.whole.send oldest sent) uncut, turn.mpr oldest⟩
    · exact .inr ⟨.inl (inv.whole.send_early oldest sent), fun ok => oldest (turn.mp ok)⟩
  | @sleeps stage next answer i here waits =>
    have turn : s.InTurn (.put i answer) ↔ s.channel.writableWaiter = none := by
      simp [InTurn, here, waits]
    cases waiter : s.channel.writableWaiter with
    | none => exact .inl ⟨inv.suspend waiter i next, turn.mpr waiter⟩
    | some j =>
      have awake := Waits.awake here waits
      refine .inr ⟨broken_suspend awake (inv.sleeps j waiter) next, fun ok => ?_⟩
      rw [turn.mp ok] at waiter
      cases waiter
  | wakes => exact .inl ⟨inv.wakes noReader _, trivial⟩

theorem Broken.step (broken : s.Broken) (noReader : s.channel.readableWaiter = none)
    (took : s.step a = some t) : t.Broken := by
  cases step_effect took with
  | none same goes cut => exact same.broken broken (by rw [goes.2]) fun gone => cut.mpr (.inl gone)
  | sends same _ _ sent opened _ =>
    refine same.broken broken (Lane.wire_send sent) fun gone => ?_
    rw [gone.1] at opened
    cases opened
  | sleeps here waits =>
    rcases broken with mixed | ⟨j, sleeps, -⟩ | gone
    · exact .inl mixed
    · exact broken_suspend (Waits.awake here waits) sleeps _
    · exact .inr (.inr gone)
  | wakes => exact broken.wakes noReader _

end State

section Runs
variable {Id : Type} [DecidableEq Id] {labels : List (Action Id)} {t : State Id}

/-- The ciphertext goes out in order and in full, however the reads, writes and shutdowns are
interleaved and however the socket takes the bytes, if and only if each step is in turn: no flush
sends bytes before those that began earlier are through, none has to wait for the socket while
another one waits, and the connection is shut down when nothing more is to be sent. -/
theorem ciphertext_in_order_iff (plainBuf : Bytes) (writable : Bool)
    (run : Run step free (start plainBuf writable) labels t) :
    t.Delivered ↔ Run step InTurn (start plainBuf writable) labels t :=
  run.good_iff (I := fun s => s.channel.readableWaiter = none) rfl
    (inv_start plainBuf writable)
    (fun noReader took => step_noReader took noReader)
    (fun noReader inv took => inv.step noReader took)
    (fun noReader broken took => broken.step noReader took) (·.delivered) (·.not_delivered)

/-- One coroutine writes, and another one reads what makes the provider answer. -/
def writeThenRead : List (Action Bool) :=
  [.write false 5, .lock false, .encrypt false 5 [1, 2, 3], .put false (.wrote 1),
    .put false (.wrote 2), .read true 10, .receive true (.fed [] [9] .ok), .put true (.wrote 1)]

theorem ciphertext_in_order_iff_sample : ∃ t, exec step (start [] true) writeThenRead = some t ∧
      (t.Delivered ↔
        Run step InTurn (start [] true) writeThenRead t) := by
  obtain ⟨t, done⟩ := Option.isSome_iff_exists.mp
    (show (exec step (start [] true) writeThenRead).isSome by decide +kernel)
  exact ⟨t, done, ciphertext_in_order_iff [] true (.of_exec done)⟩

/-- The socket is full when the write is flushed in part, and the flush of the read takes the
place of the handle that waits. -/
def readOvertakesWrite : List (Action Bool) :=
  [.write false 5, .lock false, .encrypt false 5 [1, 2, 3], .put false (.wrote 1),
    .put false .again, .put false .again, .read true 10, .receive true (.fed [] [9] .ok),
    .put true .again, .events { output := true }, .put true (.wrote 1)]

/-- The record of the read lands inside the record of the write, whose rest is never sent. -/
theorem ciphertext_interleaved : ∃ t, Run step free (start [] true) readOvertakesWrite t ∧
      t.link.produced = [1, 2, 3, 9] ∧ t.link.wire.map Prod.fst = [1, 9] ∧
      t.pc false = .flushing .suspended (.write 5 5) ∧ t.channel.writableWaiter = none := by
  have ends : ∃ t, exec step (start [] true) readOvertakesWrite = some t ∧
      t.link.produced = [1, 2, 3, 9] ∧ t.link.wire.map Prod.fst = [1, 9] ∧
        t.pc false = .flushing .suspended (.write 5 5) ∧ t.channel.writableWaiter = none :=
    exec_any (by decide +kernel)
  obtain ⟨t, done, facts⟩ := ends
  exact ⟨t, .of_exec done, facts⟩

end Runs

end Nitrocoro.Tls
