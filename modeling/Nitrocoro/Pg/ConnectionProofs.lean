import Nitrocoro.Pg.Connection

/-! Who delivers the result a query waits for. While each query is issued on a connection
that is not broken and has no other query under way, `weakPromise` refers to the promise
of the active query until it is satisfied, and the read loop satisfies it before it ends. -/
namespace Nitrocoro.Pg.Connection
open Io Function Transition
open State
variable {s t : State}

def State.active (s : State) (q : Nat) : Prop := (s.query q).phase.active = true

/-- One query at a time, and `weakPromise` refers to its promise until it is satisfied. -/
structure Slot (s : State) : Prop where
  single : ∀ p q, s.active p → s.active q → p = q
  pending : ∀ q, s.active q → (s.query q).delivered = none → s.weakPromise = some q
  waiting : ∀ q, (s.query q).phase = .waiting → (s.query q).delivered = none

structure Invariant (s : State) : Prop where
  slot : Slot s
  healthy : ∀ q, s.active q → (s.query q).delivered = none → s.broken = false
  terminated : s.readLoop = .terminated → s.broken = true

structure Keeps (s t : State) : Prop where
  weakPromise : t.weakPromise = s.weakPromise
  active : ∀ q, t.active q ↔ s.active q
  delivered : ∀ q, (t.query q).delivered = (s.query q).delivered
  waiting : ∀ q, (t.query q).phase = .waiting → (s.query q).phase = .waiting
  broken : t.broken = s.broken
  terminated : t.readLoop = .terminated → s.readLoop = .terminated

theorem Keeps.refl (s : State) : Keeps s s :=
  ⟨rfl, fun _ => Iff.rfl, fun _ => rfl, fun _ => id, rfl, id⟩

theorem Keeps.trans (first : Keeps s t) (second : Keeps t u) : Keeps s u where
  weakPromise := second.weakPromise.trans first.weakPromise
  active q := (second.active q).trans (first.active q)
  delivered q := (second.delivered q).trans (first.delivered q)
  waiting q := first.waiting q ∘ second.waiting q
  broken := second.broken.trans first.broken
  terminated := first.terminated ∘ second.terminated

theorem Slot.keeps (slot : Slot s) (kept : Keeps s t) : Slot t where
  single p q activeP activeQ :=
    slot.single p q ((kept.active p).mp activeP) ((kept.active q).mp activeQ)
  pending q active undelivered := by
    rw [kept.delivered] at undelivered
    rw [kept.weakPromise]
    exact slot.pending q ((kept.active q).mp active) undelivered
  waiting q at_ := by
    rw [kept.delivered]
    exact slot.waiting q (kept.waiting q at_)

theorem Invariant.keeps (inv : Invariant s) (kept : Keeps s t) : Invariant t where
  slot := inv.slot.keeps kept
  healthy q active undelivered := by
    rw [kept.delivered] at undelivered
    rw [kept.broken]
    exact inv.healthy q ((kept.active q).mp active) undelivered
  terminated at_ := by
    rw [kept.broken]
    exact inv.terminated (kept.terminated at_)

/-- The state of the channel and of libpq is no part of the invariant. -/
theorem Invariant.congr (inv : Invariant s) (query : t.query = s.query)
    (weakPromise : t.weakPromise = s.weakPromise) (broken : t.broken = s.broken)
    (readLoop : t.readLoop = s.readLoop) : Invariant t :=
  inv.keeps ⟨weakPromise, fun _ => by simp only [active, query], fun _ => by rw [query],
    fun _ => by rw [query]; exact id, broken, fun at_ => readLoop ▸ at_⟩

theorem setQuery_keeps (s : State) (query : Query)
    (active : query.phase.active = (s.query q).phase.active)
    (delivered : query.delivered = (s.query q).delivered)
    (waiting : query.phase = .waiting → (s.query q).phase = .waiting) :
    Keeps s (s.setQuery q query) := by
  have record : ∀ p, (s.setQuery q query).query p = s.query p ∨
      p = q ∧ (s.setQuery q query).query p = query := by
    intro p
    by_cases same : p = q
    · subst p
      exact .inr ⟨rfl, update_self ..⟩
    · exact .inl (update_of_ne same ..)
  refine ⟨rfl, fun p => ?_, fun p => ?_, fun p at_ => ?_, rfl, id⟩
  · obtain same | ⟨rfl, new⟩ := record p
    · simp only [State.active, same]
    · simp only [State.active, new, active]
  · obtain same | ⟨rfl, new⟩ := record p
    · rw [same]
    · rw [new, delivered]
  · obtain same | ⟨rfl, new⟩ := record p
    · exact same ▸ at_
    · exact waiting (new ▸ at_)

theorem wake_keeps (s : State) (woken : Coroutine) : Keeps s (s.wake woken) := by
  cases woken with
  | readLoop =>
    unfold wake
    simp only
    split
    · exact ⟨rfl, fun _ => Iff.rfl, fun _ => rfl, fun _ => id, rfl, nofun⟩
    · exact .refl s
  | query q =>
    unfold wake
    simp only
    split
    · rename_i flushing
      exact setQuery_keeps s _ (by simp only [flushing, Phase.active]) rfl nofun
    · exact .refl s

theorem schedule_keeps (s : State) (woken : Channel Coroutine × List Coroutine) :
    Keeps s (s.schedule woken) := by
  unfold schedule
  have moved : Keeps s { s with channel := woken.1 } :=
    ⟨rfl, fun _ => Iff.rfl, fun _ => rfl, fun _ => id, rfl, id⟩
  generalize { s with channel := woken.1 } = u at moved
  induction woken.2 generalizing u with
  | nil => exact moved
  | cons coroutine rest ih => exact ih _ (moved.trans (wake_keeps u coroutine))

theorem handleBroken_keeps (s : State) : Keeps { s with broken := true } (handleBroken s) := by
  unfold handleBroken
  split
  · rename_i broken
    exact ⟨rfl, fun _ => Iff.rfl, fun _ => rfl, fun _ => id, broken, id⟩
  · have kept := schedule_keeps { s with broken := true } s.channel.cancelAll
    exact { kept with }

theorem handleBroken_broken (s : State) : (handleBroken s).broken = true :=
  (handleBroken_keeps s).broken

structure Settled (s : State) : Prop where
  single : ∀ p q, s.active p → s.active q → p = q
  delivered : ∀ q, s.active q → (s.query q).delivered ≠ none
  none_waiting : ∀ q, (s.query q).phase ≠ .waiting

theorem Settled.invariant (settled : Settled s)
    (terminated : s.readLoop = .terminated → s.broken = true) : Invariant s where
  slot :=
    { single := settled.single
      pending := fun q active none => absurd none (settled.delivered q active)
      waiting := fun q at_ => absurd at_ (settled.none_waiting q) }
  healthy q active none := absurd none (settled.delivered q active)
  terminated := terminated

theorem active_of_waiting (at_ : (s.query q).phase = .waiting) : s.active q := by
  simp only [active, at_, Phase.active]

theorem Slot.only (slot : Slot s) (active : s.active q) : ∀ p, s.active p → p = q :=
  fun p other => slot.single p q other active

theorem setQuery_only (only : ∀ p, s.active p → p = q) (query : Query)
    (other : (s.setQuery q query).active p) : p = q := by
  by_cases same : p = q
  · exact same
  · simp only [active, setQuery, update_of_ne same] at other
    exact only p other

theorem leave_settled (only : ∀ p, s.active p → p = q) (outcome : Outcome) :
    Settled (leave s q outcome) := by
  have silent : ∀ p, ¬ (leave s q outcome).active p := by
    intro p other
    cases setQuery_only only _ other
    simp [active, leave, setQuery, Phase.active] at other
  exact ⟨fun p _ active => absurd active (silent p), fun p active => absurd active (silent p),
    fun p at_ => silent p (active_of_waiting at_)⟩

theorem leave_invariant (inv : Invariant s) (only : ∀ p, s.active p → p = q)
    (outcome : Outcome) : Invariant (leave s q outcome) :=
  (leave_settled only outcome).invariant inv.terminated

theorem handleBroken_slot (slot : Slot s) : Slot (handleBroken s) :=
  Slot.keeps (s := { s with broken := true }) { slot with }
    (handleBroken_keeps s)

theorem fail_invariant (slot : Slot s) (active : s.active q) (error : Error) :
    Invariant (fail s q error) := by
  have active : (handleBroken s).active q := ((handleBroken_keeps s).active q).mpr active
  exact (leave_settled ((handleBroken_slot slot).only active) (.threw error)).invariant
    fun _ => handleBroken_broken s

theorem lock_eq_some (active : s.active q) : s.lock = some q ↔ s.weakPromise = some q := by
  simp only [lock, Option.filter_eq_some_iff]
  exact ⟨fun locked => locked.1, fun same => ⟨same, active⟩⟩

theorem satisfy_phase (query : Query) (delivery : Delivery) :
    (query.satisfy delivery).phase ≠ .waiting := by
  unfold Query.satisfy
  split
  · nofun
  · assumption

theorem setQuery_settled (only : ∀ p, s.active p → p = q) (query : Query)
    (phase : query.phase ≠ .waiting) (delivered : query.delivered ≠ none) :
    Settled (s.setQuery q query) where
  single p p' left right :=
    (setQuery_only only query left).trans (setQuery_only only query right).symm
  delivered p other := by
    cases setQuery_only only query other
    simpa only [setQuery, update_self] using delivered
  none_waiting p at_ := by
    cases setQuery_only only query (active_of_waiting at_)
    simp only [setQuery, update_self] at at_
    exact phase at_

theorem deliver_settled (slot : Slot s) (delivery : Delivery) : Settled (s.deliver delivery) := by
  unfold deliver
  split
  · rename_i unlocked
    have delivered : ∀ q, s.active q → (s.query q).delivered ≠ none := by
      intro q active none
      have locked := (lock_eq_some active).mpr (slot.pending q active none)
      rw [unlocked] at locked
      cases locked
    exact ⟨slot.single, delivered, fun q at_ =>
      delivered q (active_of_waiting at_) (slot.waiting q at_)⟩
  · rename_i q locked
    have active : s.active q := by
      simp only [lock, Option.filter_eq_some_iff] at locked
      exact locked.2
    have settled := setQuery_settled (slot.only active) ((s.query q).satisfy delivery)
      (satisfy_phase _ _) nofun
    exact { settled with }

theorem deliver_readLoop (s : State) (delivery : Delivery) :
    (s.deliver delivery).readLoop = s.readLoop ∧ (s.deliver delivery).broken = s.broken := by
  unfold deliver
  split <;> exact ⟨rfl, rfl⟩

theorem deliver_invariant (inv : Invariant s) (delivery : Delivery) :
    Invariant (s.deliver delivery) := by
  obtain ⟨readLoop, broken⟩ := deliver_readLoop s delivery
  refine (deliver_settled inv.slot delivery).invariant fun at_ => ?_
  rw [broken]
  exact inv.terminated (readLoop ▸ at_)

theorem quit_invariant (inv : Invariant s) (error : Error) : Invariant (quit s error) := by
  have settled := deliver_settled (handleBroken_slot inv.slot) (.exception error)
  have broken := (deliver_readLoop (handleBroken s) (.exception error)).2
  refine Settled.invariant { settled with } fun _ => ?_
  exact broken.trans (handleBroken_broken s)

theorem needRead_keeps (s : State) : Keeps s (needRead s) := by
  unfold needRead
  simp only
  split <;> exact ⟨rfl, fun _ => Iff.rfl, fun _ => rfl, fun _ => id, rfl, nofun⟩

section
variable (inv : Invariant s)
include inv

theorem consume_invariant (message : String) (input : Input) :
    Invariant (consume s message input) := by
  cases input with
  | consumeFailed => exact quit_invariant inv _
  | busy => exact inv.keeps (needRead_keeps s)
  | results all =>
    have idle : Invariant { s with command := false } := inv.congr rfl rfl rfl rfl
    cases all with
    | nil =>
      simp only [consume]
      split
      · exact quit_invariant (deliver_invariant idle _) _
      · split
        · exact idle.keeps (needRead_keeps _)
        · exact quit_invariant idle _
    | cons res rest =>
      have delivered := deliver_invariant idle (.value (some res))
      simp only [consume]
      split
      · exact delivered.keeps (needRead_keeps _)
      · exact quit_invariant delivered _

theorem canceled_invariant : Invariant (canceled s) := by
  have moved : Invariant { s with channel := { s.channel with readCanceled := false } } :=
    inv.congr rfl rfl rfl rfl
  exact quit_invariant moved _

theorem readLoop_invariant (took : readLoop s input message = some t) : Invariant t := by
  unfold readLoop at took
  cases at_ : s.readLoop <;> simp only [at_, reduceCtorEq] at took
  case entering =>
    split at took
    · exact Option.some.inj took ▸ consume_invariant inv message input
    split at took
    · split at took <;> cases took
      · exact canceled_invariant inv
      · exact consume_invariant inv message input
    · cases took
      exact inv.keeps ⟨rfl, fun _ => Iff.rfl, fun _ => rfl, fun _ => id, rfl, nofun⟩
  case resumed =>
    split at took <;> cases took
    · exact canceled_invariant inv
    · exact consume_invariant inv message input

theorem receive_invariant (active : s.active q) (delivery : Delivery) :
    Invariant (receive s q delivery) := by
  unfold receive
  split
  · exact leave_invariant inv (inv.slot.only active) _
  · exact fail_invariant inv.slot active _
  · split <;> exact leave_invariant inv (inv.slot.only active) _

theorem setQuery_pending (active : s.active q) (query : Query)
    (undelivered : (s.query q).delivered = none)
    (waiting : query.phase = .waiting → query.delivered = none) :
    Invariant (s.setQuery q query) := by
  have only := inv.slot.only active
  have weakPromise := inv.slot.pending q active undelivered
  have healthy := inv.healthy q active undelivered
  refine ⟨⟨fun p p' left right => ?_, fun p other _ => ?_, fun p at_ => ?_⟩, fun _ _ _ => healthy,
    inv.terminated⟩
  · exact (setQuery_only only query left).trans (setQuery_only only query right).symm
  · cases setQuery_only only query other
    exact weakPromise
  · cases setQuery_only only query (active_of_waiting at_)
    simp only [setQuery, update_self] at at_ ⊢
    exact waiting at_

/-- The query suspends on its promise, or takes what was delivered meanwhile. -/
theorem flushed_invariant (active : s.active q) : Invariant (flushed s q) := by
  unfold flushed
  split
  · exact fail_invariant inv.slot active _
  split
  · exact receive_invariant inv active _
  · rename_i undelivered
    apply setQuery_pending inv active _ undelivered
    simp only [undelivered, implies_true]

theorem waitWritable_invariant (active : s.active q) : Invariant (waitWritable s q) := by
  have kept := setQuery_keeps s { s.query q with phase := .flushing } active.symm rfl nofun
  exact (inv.keeps kept).congr rfl rfl rfl rfl

theorem flush_invariant (active : s.active q) (message : String)
    (result : Flush) : Invariant (flush s q message result) := by
  cases result with
  | success =>
    exact flushed_invariant (s := { s with channel := { s.channel with writing := false } })
      (inv.congr rfl rfl rfl rfl) active
  | needWrite =>
    have moved : Invariant
        { s with channel := { s.channel with writing := true, writable := false } } :=
      inv.congr rfl rfl rfl rfl
    simp only [flush]
    split
    · exact moved
    · exact waitWritable_invariant moved active
  | error => exact fail_invariant inv.slot active _

theorem resumeFlush_invariant (active : s.active q) (result : Flush)
    (message : String) : Invariant (resumeFlush s q result message) := by
  unfold resumeFlush
  split
  · have moved : Invariant { s with channel := { s.channel with writeCanceled := false } } :=
      inv.congr rfl rfl rfl rfl
    exact fail_invariant moved.slot active _
  · exact flush_invariant inv active message result

end

/-- Each query is issued while the connection is not marked broken and no other query on
it is unfinished. -/
def issuedAlone (s : State) : Action → Prop
  | .sendAndReceive _ _ _ _ => s.broken = false ∧ ∀ p, ¬ s.active p
  | _ => True

theorem issue_invariant (inv : Invariant s) (unbroken : s.broken = false)
    (only : ∀ p, s.active p → p = q) : Invariant (issue s q) := by
  refine ⟨⟨fun p p' left right => ?_, fun p active _ => ?_, fun p at_ => ?_⟩,
    fun _ _ _ => unbroken, inv.terminated⟩
  · exact (setQuery_only only _ left).trans (setQuery_only only _ right).symm
  · cases setQuery_only only _ active
    rfl
  · cases setQuery_only only _ (active_of_waiting at_)
    simp [issue, setQuery] at at_

theorem issue_active (s : State) (q : Nat) : (issue s q).active q := by
  simp [active, issue, setQuery, Phase.active]

theorem performFlush_invariant (inv : Invariant s) (active : s.active q) (result : Flush)
    (message : String) : Invariant (performFlush s q result message) := by
  unfold performFlush
  split
  · exact flush_invariant inv active message result
  · split
    · exact resumeFlush_invariant inv active result message
    · exact waitWritable_invariant inv active

theorem sendAndReceive_invariant (inv : Invariant s) (unbroken : s.broken = false)
    (silent : ∀ p, ¬ s.active p) (q : Nat) (accepted : Bool) (result : Flush) (message : String) :
    Invariant (sendAndReceive s q accepted result message) := by
  have only : ∀ p, s.active p → p = q := fun p active => absurd active (silent p)
  have issued := issue_invariant inv unbroken only
  unfold sendAndReceive
  split
  · exact leave_invariant inv only _
  split
  · exact fail_invariant issued.slot (issue_active s q) _
  · have sent : Invariant { issue s q with command := true } := issued.congr rfl rfl rfl rfl
    exact performFlush_invariant sent (issue_active s q) result message

theorem step_invariant (inv : Invariant s) (alone : issuedAlone s label)
    (took : step s label = some t) : Invariant t := by
  cases label with
  | sendAndReceive q accepted result message =>
    obtain ⟨_, took⟩ := Option.ite_none_right_eq_some.mp took
    exact Option.some.inj took ▸
      sendAndReceive_invariant inv alone.1 alone.2 q accepted result message
  | resumeFlush q result message =>
    obtain ⟨ready, took⟩ := Option.ite_none_right_eq_some.mp took
    have active : s.active q := by simp only [active, ready, Phase.active]
    exact Option.some.inj took ▸ resumeFlush_invariant inv active result message
  | receive q =>
    simp only [step] at took
    split at took <;> cases took
    rename_i resuming _
    have active : s.active q := by simp only [active, resuming, Phase.active]
    exact receive_invariant inv active _
  | readLoop input message =>
    obtain ⟨_, took⟩ := Option.ite_none_right_eq_some.mp took
    exact readLoop_invariant inv took
  | cancel q =>
    cases took
    exact inv.keeps (setQuery_keeps s { s.query q with cancelled := true } rfl rfl id)
  | onCancel q =>
    obtain ⟨_, rfl⟩ := of_ite took
    have fired := setQuery_keeps s { s.query q with registered := false } rfl rfl id
    exact (inv.keeps fired).keeps (schedule_keeps _ _)
  | handleIoEvents ev =>
    obtain ⟨_, took⟩ := Option.ite_none_right_eq_some.mp took
    exact Option.some.inj took ▸ inv.keeps (schedule_keeps _ _)
  | lose =>
    cases took
    exact inv.congr rfl rfl rfl rfl

/-- In the runs in which every query is issued alone and on an unbroken connection, a query
that is suspended on its promise has the read loop running for it. -/
theorem waiting_delivered (run : Reaches readable writable errored issuedAlone labels s)
    (waiting : (s.query q).phase = .waiting) :
    s.readLoop ≠ .terminated ∧ s.weakPromise = some q ∧ s.broken = false := by
  have inv := run.invariant
    ⟨⟨nofun, nofun, nofun⟩, nofun, nofun⟩ fun inv alone stepped => step_invariant inv alone stepped
  have undelivered := inv.slot.waiting q waiting
  have active := active_of_waiting waiting
  have unbroken := inv.healthy q active undelivered
  refine ⟨fun ended => ?_, inv.slot.pending q active undelivered, unbroken⟩
  rw [inv.terminated ended] at unbroken
  cases unbroken

/-- A query is sent and flushed at once; the read loop has been started. -/
def queryOnce : List Action :=
  [.readLoop .busy "", .sendAndReceive 0 true .success ""]

theorem waiting_delivered_once : ∃ s, Reaches false true false issuedAlone queryOnce s ∧
    (s.query 0).phase = .waiting ∧ s.readLoop ≠ .terminated ∧ s.weakPromise = some 0 ∧
    s.broken = false := by
  have run : Reaches false true false issuedAlone queryOnce _ :=
    .next (.next .refl trivial rfl) ⟨rfl, nofun⟩ rfl
  exact ⟨_, run, rfl, waiting_delivered run rfl⟩

/-- The token of the first query is cancelled after its result was delivered and before it
resumes. The callback ends the read loop; libpq accepts the second query all the same. -/
def queryAfterCancel : List Action :=
  [.readLoop .busy "", .sendAndReceive 0 true .success "", .handleIoEvents { input := true },
    .readLoop (.results [{ ok := true }]) "", .cancel 0, .onCancel 0, .receive 0,
    .readLoop .busy "", .sendAndReceive 1 true .success ""]

/-- The second query is refused, and its promise has taken the place of the first one's. -/
def queryTwice : List Action :=
  [.readLoop .busy "", .sendAndReceive 0 true .success "",
    .sendAndReceive 1 false .success "another command is already in progress", .readLoop .busy ""]

theorem waiting_undelivered : (∃ s, Reaches false true false free queryAfterCancel s ∧
      (s.query 1).phase = .waiting ∧ s.readLoop = .terminated) ∧
    ∃ s, Reaches false true false free queryTwice s ∧
      (s.query 0).phase = .waiting ∧ s.weakPromise = some 1 ∧ s.readLoop = .terminated :=
  ⟨⟨_, .of_exec rfl, rfl, rfl⟩, _, .of_exec rfl, rfl, rfl, rfl⟩

end Nitrocoro.Pg.Connection
