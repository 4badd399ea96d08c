import Nitrocoro.Pg.PoolProofs

/-! How the pool serves its waiters: when a promise is satisfied twice, that no waiter is
left behind while there is something to give it, and when a dead connection is handed out. -/
namespace Nitrocoro.Pg.Pool
open Function Transition List
variable {s t : State}

def State.demand (s : State) : Nat :=
  s.waiters.countP fun w => !(s.waiter w).cancelled

def State.supply (s : State) : Nat :=
  s.idle.length + (s.maxSize.toNat - s.totalCount.toNat)

def Served (s : State) : Prop := s.demand = 0 ∨ s.supply = 0

def Nearly (s : State) : Prop := s.demand ≤ 1 ∨ s.supply ≤ 1

theorem Served.nearly (served : Served s) (demand : t.demand ≤ s.demand + 1)
    (supply : t.supply ≤ s.supply + 1) : Nearly t := by
  obtain none | none := served
  · exact .inl (by omega)
  · exact .inr (by omega)

theorem Served.keep (served : Served s) (demand : t.demand ≤ s.demand)
    (supply : t.supply ≤ s.supply) : Served t :=
  served.imp (fun none => by omega) fun none => by omega

theorem skipCancelled_demand (s : State) : s.skipCancelled.demand = s.demand := by
  unfold State.demand State.skipCancelled
  induction s.waiters with
  | nil => rfl
  | cons w waiters ih =>
    cases token : (s.waiter w).cancelled with
    | false => rw [dropWhile_cons_of_neg (by simp [token])]
    | true =>
      rw [dropWhile_cons_of_pos (by simpa using token), ih]
      simp [token]

theorem demand_front (front : s.waiters = w :: waiters) (token : (s.waiter w).cancelled = false)
    (rest : t.waiters = waiters)
    (cancelled : ∀ w, (t.waiter w).cancelled = (s.waiter w).cancelled) :
    t.demand + 1 = s.demand := by
  simp only [State.demand, front, rest, cancelled]
  rw [countP_cons_of_pos (by simp [token])]

/-- A dispatch takes one waiter off the demand and one connection or slot off the supply. -/
theorem Dispatches.served (did : Dispatches s t) (nearly : Nearly s)
    (opens : ∀ w waiters, s.waiters = w :: waiters → (s.waiter w).cancelled = false) :
    Served t := by
  have frame := did.frame
  cases did with
  | nothing stuck =>
    obtain none_waiting | ⟨none_idle, full⟩ := stuck
    · exact .inl (by simp [State.demand, none_waiting])
    right
    have full := UInt64.le_iff_toNat_le.mp (UInt64.not_lt.mp full)
    simp only [State.supply, none_idle, length_nil]
    omega
  | @handed w waiters c idle after front available satisfied =>
    have demand := demand_front front
      (opens w waiters front) rfl frame.cancelled
    have supply : State.supply { after with idle := idle, waiters := waiters } + 1 = s.supply := by
      simp only [State.supply, available, length_cons, setValue_frame satisfied, State.setWaiter]
      omega
    exact nearly.imp (fun _ => by omega) fun _ => by omega
  | @spawned w waiters front none_idle slot =>
    have below := UInt64.lt_iff_toNat_lt.mp slot
    have raised := spawn_total slot
    refine nearly.imp (fun few => ?_) fun few => ?_
    · have demand := demand_front front (opens w waiters front) rfl frame.cancelled
      omega
    · simp only [State.supply] at few ⊢
      omega

theorem dispatch_served (queue : Queue s) (nearly : Nearly s) : Served (dispatch s) := by
  refine (dispatch_dispatches queue).served ?_ fun w waiters front =>
    skipCancelled_front (s := s) front
  unfold Nearly at nearly ⊢
  rwa [skipCancelled_demand]

def breaksOutside (s : State) : Action → Prop
  | .lose c | .handleBroken c _ => c ∉ s.idle
  | _ => True

/-- Everything idle is alive, and so was everything that was handed over. -/
structure Lively (s : State) : Prop where
  idle : ∀ c ∈ s.idle, (s.conn c).isAlive = true
  handovers : ∀ handover ∈ s.handovers, handover.2.2 = true

theorem Lively.congr (lively : Lively s) (idle : t.idle = s.idle)
    (handovers : t.handovers = s.handovers)
    (conn : ∀ c ∈ s.idle, (s.conn c).isAlive = true → (t.conn c).isAlive = true) : Lively t where
  idle c mem := conn c (idle ▸ mem) (lively.idle c (idle ▸ mem))
  handovers := handovers ▸ lively.handovers

theorem Dispatches.lively (did : Dispatches s t) (lively : Lively s) : Lively t := by
  cases did with
  | nothing => exact lively
  | spawned => exact { lively with }
  | @handed w waiters c idle after front available satisfied =>
    have alive : ∀ d ∈ c :: idle, (s.conn d).isAlive = true := available ▸ lively.idle
    rw [setValue_frame satisfied]
    refine ⟨fun d mem => alive d (mem_cons_of_mem c mem), fun handover mem => ?_⟩
    rcases mem_append.mp mem with old | new
    · exact lively.handovers handover old
    · rw [mem_singleton.mp new]
      exact alive c mem_cons_self

theorem dispatch_lively (queue : Queue s) (lively : Lively s) : Lively (dispatch s) :=
  (dispatch_dispatches queue).lively { lively with }

/-- What happens between two dispatches: at most `n` waiters and `n` connections or slots are added,
and with the condition `p` everything idle stays alive. -/
structure Change (n : Nat) (p : Prop) (s t : State) : Prop where
  satisfied : t.alreadySatisfied = s.alreadySatisfied
  demand : t.demand ≤ s.demand + n
  supply : t.supply ≤ s.supply + n
  lively : p → Lively s → Lively t

/-- What every step but a cancellation keeps. -/
structure Keeps (p : Prop) (s t : State) : Prop where
  satisfied : t.alreadySatisfied = s.alreadySatisfied
  served : Served s → Served t
  lively : p → Lively s → Lively t

variable {p : Prop}

theorem Change.trans (first : Change m p s t) (second : Change n p t u) :
    Change (m + n) p s u where
  satisfied := second.satisfied.trans first.satisfied
  demand := second.demand.trans (by have := first.demand; omega)
  supply := second.supply.trans (by have := first.supply; omega)
  lively ok lively := second.lively ok (first.lively ok lively)

theorem Change.keeps (change : Change 0 p s t) : Keeps p s t where
  satisfied := change.satisfied
  served served := served.keep change.demand change.supply
  lively := change.lively

theorem Change.dispatch (change : Change 1 p s t) (queue : Queue t) : Keeps p s (dispatch t) where
  satisfied := (dispatch_frame queue).alreadySatisfied.trans change.satisfied
  served served := dispatch_served queue (served.nearly change.demand change.supply)
  lively ok lively := dispatch_lively queue (change.lively ok lively)

theorem Keeps.trans (first : Keeps p s t) (second : Keeps p t u) : Keeps p s u where
  satisfied := second.satisfied.trans first.satisfied
  served := second.served ∘ first.served
  lively ok lively := second.lively ok (first.lively ok lively)

theorem release_change (positive : 1 ≤ s.totalCount.toNat) (conn : Option Nat) :
    Change 1 p s (s.release conn) := by
  have lowered := (release_total positive conn).1
  refine ⟨rfl, Nat.le_succ _, ?_, fun _ lively => { lively with }⟩
  show s.idle.length + (s.maxSize.toNat - (s.release conn).totalCount.toNat) ≤ _
  rw [lowered, State.supply]
  omega

theorem pushIdle_change (alive : (s.conn c).isAlive = true) :
    Change 1 p s { s with idle := s.idle ++ [c] } := by
  refine ⟨rfl, Nat.le_succ _, ?_, fun _ lively => ⟨fun d mem => ?_, lively.handovers⟩⟩
  · simp only [State.supply, length_append, length_singleton]
    omega
  · rcases mem_append.mp mem with old | new
    · exact lively.idle d old
    · exact mem_singleton.mp new ▸ alive

theorem setWaiter_demand (waiter : Waiter)
    (token : (s.waiter w).cancelled = true → waiter.cancelled = true) :
    (s.setWaiter w waiter).demand ≤ s.demand := by
  refine countP_mono_left fun v _ open_ => ?_
  simp only [State.setWaiter, update_apply] at open_
  split at open_
  · subst v
    cases old : (s.waiter w).cancelled with
    | false => rfl
    | true => simp [token old] at open_
  · exact open_

theorem setWaiter_change (waiter : Waiter)
    (token : (s.waiter w).cancelled = true → waiter.cancelled = true) :
    Change 0 p s (s.setWaiter w waiter) :=
  ⟨rfl, setWaiter_demand waiter token, le_rfl, fun _ lively => { lively with }⟩

theorem setHandle_change (handle : Handle) : Change 0 p s (s.setHandle h handle) :=
  ⟨rfl, le_rfl, le_rfl, fun _ lively => { lively with }⟩

theorem setConn_change (conn : Conn) (kept : p → c ∈ s.idle → conn.isAlive = (s.conn c).isAlive) :
    Change 0 p s (s.setConn c conn) := by
  refine ⟨rfl, le_rfl, le_rfl, fun ok lively => lively.congr rfl rfl fun d mem alive => ?_⟩
  simp only [State.setConn, update_apply]
  split
  · subst d
    rw [kept ok mem, alive]
  · exact alive

theorem schedule_keeps (inv : Invariant {task.conn} s) (inline : Bool) :
    Keeps p s (schedule s inline task) := by
  have released : ∀ c, Keeps p s (dispatch (s.release (some c))) := by
    intro c
    have total := inv.account.total
    rw [Multiset.card_add, Multiset.card_singleton] at total
    exact (release_change (by omega) _).dispatch { inv.queue with }
  unfold schedule returnConnection detachConnection
  split
  · split
    · split
      · exact released _
      · rename_i alive
        have pushed := pushIdle_change (p := p) (by simpa using alive)
        exact pushed.dispatch { inv.queue with }
    · exact released _
  · exact ⟨rfl, id, fun _ lively => { lively with }⟩

theorem testAndSet_keeps (inv : Invariant 0 s) (known : h < s.nextHandle) (inline : Bool)
    (task : Nat → Task) (names : ∀ c, (task c).conn = c) :
    Keeps p s (testAndSet s h inline task) := by
  have marked := (setHandle_change (s := s) (h := h) (p := p)
    { s.handle h with detached := true }).keeps
  unfold testAndSet
  split
  · rename_i attached
    have taken := taken_invariant inv known ((Bool.not_eq_true' _).mp attached) names
    exact marked.trans (schedule_keeps taken inline)
  · exact marked

theorem resume_keeps (s : State) (w : Nat) : Keeps p s (resume s w) := by
  have left := (setWaiter_change (s := s) (w := w) (p := p)
    { s.waiter w with done := true } id).keeps
  unfold resume
  simp only
  split
  · rename_i c _
    have installed := (setConn_change (s := s.setWaiter w { s.waiter w with done := true })
      (c := c) (p := p) { s.conn c with brokenHandler := some s.nextHandle } fun _ _ => rfl).keeps
    have both := left.trans installed
    exact ⟨both.satisfied, both.served, fun ok lively => let kept := both.lively ok lively
      { kept with }⟩
  · exact left

theorem push_demand (queue : Queue s) (waiter : Waiter) :
    (s.push waiter).demand ≤ s.demand + 1 := by
  have unknown : s.nextWaiter ∉ s.waiters := fun mem =>
    (queue.known _ (mem_append_left _ mem)).false
  have same : s.waiters.countP (fun w => !((s.push waiter).waiter w).cancelled) = s.demand := by
    refine countP_congr fun w mem => ?_
    have other : w ≠ s.nextWaiter := fun same => unknown (same ▸ mem)
    simp only [State.push, State.setWaiter, update_of_ne other]
  show List.countP _ (s.waiters ++ [s.nextWaiter]) ≤ _
  rw [countP_append, same]
  exact Nat.add_le_add_left (countP_le_length) _

theorem acquire_keeps (inv : Invariant 0 s) (cancelled : Bool) :
    Keeps p s (acquire s cancelled) := by
  have pushed : Change 1 p s (s.push (onCancel cancelled)) :=
    ⟨rfl, push_demand inv.queue _, Nat.le_succ _, fun _ lively => { lively with }⟩
  have done := pushed.dispatch (pushed_invariant inv cancelled).queue
  unfold acquire
  simp only
  split
  · exact done
  · exact done.trans (resume_keeps _ _)

theorem establish_change (s : State) (w : Nat) : Change 0 p s (s.establish w) := by
  refine ⟨rfl, le_rfl, le_rfl, fun _ lively => lively.congr rfl rfl fun d _ old => ?_⟩
  simp only [State.establish, State.setConn, update_apply]
  split
  · rfl
  · exact old

theorem connected_keeps (inv : Invariant 0 s) (mem : w ∈ s.connecting) :
    Keeps p s (connected s w) := by
  have alive : ((s.establish w).conn s.nextConn).isAlive = true := by
    simp [State.establish, State.setConn, Conn.isAlive]
  have held := establish_invariant inv mem
  have made : Change 0 p s (s.establish w) := establish_change s w
  unfold connected
  simp only
  split
  · rename_i token
    have waiting := inv.queue.waiting w (mem_append_right _ mem) ((Bool.not_eq_true' _).mp token)
    rw [setValue_open (s := s.establish w) waiting.1, alive]
    have told := made.trans (setWaiter_change (s := s.establish w) (w := w)
      { (s.establish w).waiter w with promise := .value s.nextConn } id)
    refine Change.keeps ⟨told.satisfied, told.demand, told.supply, fun ok lively => ?_⟩
    have made := made.lively ok lively
    refine ⟨made.idle, fun handover mem => ?_⟩
    rcases mem_append.mp mem with old | new
    · exact made.handovers handover old
    · rw [mem_singleton.mp new]
  · exact (made.trans (pushIdle_change alive)).dispatch { held.queue with }

theorem connectFailed_keeps (inv : Invariant 0 s) (mem : w ∈ s.connecting) (error : Error) :
    Keeps p s (connectFailed s w error) := by
  have total := inv.account.total
  have some_connecting := length_pos_of_mem mem
  have left : Change 0 p s { s with connecting := s.connecting.erase w } :=
    ⟨rfl, le_rfl, le_rfl, fun _ lively => { lively with }⟩
  have abandoned : Change 1 p s (s.abandon w) :=
    left.trans (release_change (s := { s with connecting := s.connecting.erase w })
      (show 1 ≤ s.totalCount.toNat by omega) none)
  rcases connectFailed_cases inv mem error with ⟨token, told⟩ | silent
  · rw [told]
    have failed := abandoned.trans (setWaiter_change (s := s.abandon w) (w := w)
      { (s.abandon w).waiter w with promise := .exception error } id)
    exact failed.dispatch (failed_invariant inv mem token error).queue
  · rw [silent]
    exact abandoned.dispatch (abandon_invariant inv mem).queue

theorem handleBroken_keeps (inv : Invariant 0 s) (c : Nat) (inline : Bool) :
    Keeps (c ∉ s.idle) s (handleBroken s c inline) := by
  have broken := setConn_invariant inv { s.conn c with broken := true } rfl
  have marked := (setConn_change (s := s) (c := c) (p := c ∉ s.idle)
    { s.conn c with broken := true } fun outside mem => absurd mem outside).keeps
  unfold handleBroken
  simp only
  split
  · exact ⟨rfl, id, fun _ => id⟩
  split
  · exact marked
  · rename_i h installed
    exact marked.trans (testAndSet_keeps broken (broken.handlers c h installed) inline _ fun _ => rfl)

theorem step_keeps (inv : Invariant 0 s) (kind : ∀ w, label ≠ .cancel w)
    (took : step s label = some t) : Keeps (breaksOutside s label) s t := by
  cases effect_of_step took with
  | acquire => exact acquire_keeps inv _
  | resume => exact resume_keeps s _
  | @cancel w => exact absurd rfl (kind w)
  | connected mem => exact connected_keeps inv mem
  | connectFailed mem => exact connectFailed_keeps inv mem _
  | @destroy h inline known =>
    have marked := setHandle_invariant inv known { s.handle h with destroyed := true } (add_zero _)
    exact (setHandle_change _).keeps.trans
      (testAndSet_keeps marked known inline .returnConnection fun _ => rfl)
  | lose => exact (setConn_change _ fun outside mem => absurd mem outside).keeps
  | handleBroken => exact handleBroken_keeps inv _ _
  | @run task tasks queued =>
    have popped : Keeps True s { s with tasks := tasks } := ⟨rfl, id, fun _ lively => { lively with }⟩
    exact popped.trans (schedule_keeps (pop_invariant inv queued) true)

/-- A cancellation, too, keeps what there is to give. -/
theorem cancel_kept (s : State) (w : Nat) :
    (Served s → Served (cancel s w)) ∧ (Lively s → Lively (cancel s w)) := by
  have marked : Change 0 True s (s.setWaiter w { s.waiter w with cancelled := true }) :=
    setWaiter_change _ fun _ => rfl
  unfold cancel
  simp only
  split
  · split
    · exact ⟨marked.keeps.served, fun lively => { lively with }⟩
    rename_i t satisfied
    unfold State.setException at satisfied
    split at satisfied <;> cases satisfied
    let t := s.setWaiter w { s.waiter w with cancelled := true }
    have told := marked.trans (setWaiter_change (s := t) (w := w) { t.waiter w with
      promise := .exception (.pgTimeoutError "PgPool: acquire timed out") } id)
    exact ⟨told.keeps.served, told.keeps.lively trivial⟩
  · exact ⟨id, id⟩

theorem step_kept (inv : Invariant 0 s) (took : step s label = some t) :
    (Served s → Served t) ∧ (breaksOutside s label → Lively s → Lively t) := by
  by_cases kind : ∀ w, label ≠ .cancel w
  · have keeps := step_keeps inv kind took
    exact ⟨keeps.served, keeps.lively⟩
  · push Not at kind
    obtain ⟨w, rfl⟩ := kind
    cases took
    exact (cancel_kept s w).imp_right fun lively _ => lively

section Satisfied

/-- The promise is satisfied and the acquiring coroutine has not resumed yet. -/
def State.inWindow (s : State) (w : Nat) : Prop :=
  w < s.nextWaiter ∧ (s.waiter w).promise ≠ .unsatisfied ∧ (s.waiter w).cancelled = false ∧
    (s.waiter w).done = false

def cancelsOutside (s : State) : Action → Prop
  | .cancel w => ¬ s.inWindow w
  | _ => True

/-- Only a waiter whose coroutine has not resumed is still alive with a satisfied promise. -/
theorem Queue.alive_open (queue : Queue s) (alive : s.alive w = true)
    (token : (s.waiter w).cancelled = false) : w < s.nextWaiter ∧ (s.waiter w).done = false := by
  simp only [State.alive, Bool.and_eq_true, Bool.or_eq_true, decide_eq_true_eq,
    contains_iff_mem, Bool.not_eq_true'] at alive
  obtain ⟨known, (waiting | queued) | connecting⟩ := alive
  · exact ⟨known, waiting⟩
  · exact ⟨known, (queue.waiting w (mem_append_left _ queued) token).2⟩
  · exact ⟨known, (queue.waiting w (mem_append_right _ connecting) token).2⟩

theorem cancel_satisfied (queue : Queue s) (w : Nat) :
    (cancel s w).alreadySatisfied = s.alreadySatisfied ∧ ¬ s.inWindow w ∨
      (cancel s w).alreadySatisfied = s.alreadySatisfied ++ [w] ∧ s.inWindow w := by
  unfold cancel
  split
  · rename_i able
    simp only [Bool.and_eq_true, Bool.not_eq_true'] at able
    obtain ⟨alive, token⟩ := able
    obtain ⟨known, waiting⟩ := queue.alive_open alive token
    simp only [State.setException, State.setWaiter, update_self]
    cases promise : (s.waiter w).promise with
    | unsatisfied => exact .inl ⟨rfl, fun window => window.2.1 promise⟩
    | value | exception => exact .inr ⟨rfl, known, by simp [promise], token, waiting⟩
  · rename_i unable
    refine .inl ⟨rfl, fun window => unable ?_⟩
    obtain ⟨known, -, token, waiting⟩ := window
    simp [State.alive, known, waiting, token]

theorem step_satisfied (inv : Invariant 0 s) (took : step s label = some t) :
    t.alreadySatisfied = s.alreadySatisfied ∧ cancelsOutside s label ∨
      (∃ w, t.alreadySatisfied = s.alreadySatisfied ++ [w]) ∧ ¬ cancelsOutside s label := by
  by_cases kind : ∀ w, label ≠ .cancel w
  · refine .inl ⟨(step_keeps inv kind took).satisfied, ?_⟩
    cases label with
    | cancel w => exact absurd rfl (kind w)
    | _ => trivial
  · push Not at kind
    obtain ⟨w, rfl⟩ := kind
    cases took
    exact (cancel_satisfied inv.queue w).imp_right fun ⟨added, inside⟩ =>
      ⟨⟨w, added⟩, not_not_intro inside⟩

/-- No promise is satisfied twice exactly in the runs in which no token is cancelled
between the satisfaction of its waiter and the resumption of the acquiring coroutine. -/
theorem alreadySatisfied_nil_iff (run : Reaches maxSize free labels s) :
    s.alreadySatisfied = [] ↔ Reaches maxSize cancelsOutside labels s :=
  run.history_nil_iff (initial_invariant maxSize) rfl step_invariant step_satisfied

/-- A connection is returned to a waiter whose token is then cancelled before it resumes. -/
def cancelServed : List Action :=
  [.acquire false, .connected 0, .resume 0, .acquire false, .destroy 0 true, .cancel 1]

theorem cancel_served_satisfies_twice :
    ∃ s, Reaches 1 free cancelServed s ∧ s.alreadySatisfied = [1] :=
  ⟨_, .of_exec rfl, rfl⟩

def cancelQueued : List Action :=
  [.acquire false, .connected 0, .resume 0, .acquire false, .cancel 1, .destroy 0 true]

theorem alreadySatisfied_nil_queued : ∃ s, Reaches 1 free cancelQueued s ∧
    s.alreadySatisfied = [] ∧ Reaches 1 cancelsOutside cancelQueued s := by
  have run : Reaches 1 free cancelQueued _ := .of_exec rfl
  exact ⟨_, run, rfl, (alreadySatisfied_nil_iff run).mp rfl⟩

end Satisfied

section Stranded

theorem reaches_served (run : Reaches maxSize allowed labels s) : Served s := by
  have both := run.invariant (P := fun s => Invariant 0 s ∧ Served s)
    ⟨initial_invariant maxSize, .inl rfl⟩ fun kept _ took =>
      ⟨step_invariant kept.1 took, (step_kept kept.1 took).1 kept.2⟩
  exact both.2

/-- While a waiter that is not cancelled is queued, there is no idle connection and no
free slot, although a dispatch serves at most one waiter. -/
theorem no_waiter_stranded (run : Reaches maxSize free labels s)
    (queued : w ∈ s.waiters) (token : (s.waiter w).cancelled = false) :
    s.idle = [] ∧ maxSize ≤ s.totalCount := by
  have waiting : s.demand ≠ 0 := by
    have positive : 0 < s.demand := countP_pos_iff.mpr ⟨w, queued, by simp [token]⟩
    omega
  have none_left := (reaches_served run).resolve_left waiting
  rw [State.supply, Nat.add_eq_zero_iff, length_eq_zero_iff] at none_left
  refine ⟨none_left.1, ?_⟩
  rw [← reaches_maxSize run]
  exact Nat.le_of_sub_eq_zero none_left.2

/-- The only connection is checked out while a second waiter queues. -/
def acquireTwice : List Action :=
  [.acquire false, .connected 0, .resume 0, .acquire false]

theorem no_waiter_stranded_twice : ∃ s, Reaches 1 free acquireTwice s ∧
    s.waiters = [1] ∧ s.idle = [] ∧ 1 ≤ s.totalCount := by
  have run : Reaches 1 free acquireTwice _ := .of_exec rfl
  exact ⟨_, run, rfl, no_waiter_stranded run (mem_singleton.mpr rfl) rfl⟩

end Stranded

section Liveness

/-- In the runs in which no connection breaks while it is idle, every waiter was satisfied
with a connection that was alive then. -/
theorem handovers_alive (run : Reaches maxSize breaksOutside labels s) :
    ∀ w c alive, (w, c, alive) ∈ s.handovers → alive = true := by
  have both := run.invariant (P := fun s => Invariant 0 s ∧ Lively s)
    ⟨initial_invariant maxSize, nofun, nofun⟩ fun kept outside stepped =>
      ⟨step_invariant kept.1 stepped, (step_kept kept.1 stepped).2 outside kept.2⟩
  exact fun w c alive mem => both.2.handovers (w, c, alive) mem

/-- A returned connection breaks in the idle queue; the flag of its last borrower is set. -/
def breakIdle : List Action :=
  [.acquire false, .connected 0, .resume 0, .destroy 0 true, .handleBroken 0 true, .acquire false]

theorem dead_connection_handed_over : ∃ s, Reaches 1 free breakIdle s ∧
    s.handovers = [(0, 0, true), (1, 0, false)] :=
  ⟨_, .of_exec rfl, rfl⟩

def breakBorrowed : List Action :=
  [.acquire false, .connected 0, .resume 0, .handleBroken 0 true, .acquire false, .connected 1]

theorem handovers_alive_borrowed : ∃ s, Reaches 1 breaksOutside breakBorrowed s ∧
    s.handovers = [(0, 0, true), (1, 1, true)] ∧
    ∀ w c alive, (w, c, alive) ∈ s.handovers → alive = true := by
  have run : Reaches 1 breaksOutside breakBorrowed _ :=
    .next (.next (.next (.next (.next (.next .refl trivial rfl) trivial rfl) trivial rfl)
      not_mem_nil rfl) trivial rfl) trivial rfl
  exact ⟨_, run, rfl, handovers_alive run⟩

end Liveness

end Nitrocoro.Pg.Pool
