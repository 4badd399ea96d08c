import Nitrocoro.Pg.Pool
import Nitrocoro.Lib.Table

/-! The accounts of the pool. A connection that a step has taken from one place and not
yet put into the next is in hand; every operation moves connections between their places
and the hand, so that the counter always agrees with what is counted. What a step can do
to the connections and to the objects that hold them is said once, in `Touches`. -/
namespace Nitrocoro.Pg.Pool
open Finset Function Transition
open List hiding after mem_range
variable {s t : State}

def Waiter.carried (w : Waiter) : Multiset Nat :=
  match w.done, w.promise with
  | false, .value c => {c}
  | _, _ => 0

def Handle.held (h : Handle) : Multiset Nat :=
  if h.detached then 0 else {h.impl}

def Task.conn : Task → Nat
  | .returnConnection c | .detachConnection c => c

/-- The connections that occupy a slot: idle, carried, checked out, or queued. -/
def State.conns (s : State) : Multiset Nat :=
  s.idle + ∑ w ∈ range s.nextWaiter, (s.waiter w).carried +
    ∑ h ∈ range s.nextHandle, (s.handle h).held + (s.tasks.map Task.conn : List Nat)

theorem setWaiter_conns (s : State) (waiter : Waiter) (known : w < s.nextWaiter) :
    (s.setWaiter w waiter).conns + (s.waiter w).carried = s.conns + waiter.carried := by
  have changed := Table.sum_update Waiter.carried s.waiter waiter known
  simp only [State.conns]
  calc
    _ = s.idle + (∑ j ∈ range s.nextWaiter, (update s.waiter w waiter j).carried +
          (s.waiter w).carried) + ∑ h ∈ range s.nextHandle, (s.handle h).held +
          (s.tasks.map Task.conn : List Nat) := by ac_rfl
    _ = _ := by rw [changed]; ac_rfl

theorem setHandle_conns (s : State) (handle : Handle) (known : h < s.nextHandle) :
    (s.setHandle h handle).conns + (s.handle h).held = s.conns + handle.held := by
  have changed := Table.sum_update Handle.held s.handle handle known
  simp only [State.conns]
  calc
    _ = s.idle + ∑ w ∈ range s.nextWaiter, (s.waiter w).carried +
          (∑ j ∈ range s.nextHandle, (update s.handle h handle j).held +
          (s.handle h).held) + (s.tasks.map Task.conn : List Nat) := by ac_rfl
    _ = _ := by rw [changed]; ac_rfl

/-- The counter agrees with the places and the hand, and every connection ever made is in
exactly one place, in hand or has given its slot back. -/
structure Account (hand : Multiset Nat) (s : State) : Prop where
  total : s.totalCount.toNat = (s.conns + hand).card + s.connecting.length
  whole : s.conns + hand + s.released = Multiset.range s.nextConn
  bound : s.totalCount ≤ s.maxSize
  counted : s.underflow = false

theorem Account.move (account : Account hand s) (conns : t.conns + hand' = s.conns + hand)
    (same : (t.totalCount, t.connecting, t.released, t.nextConn, t.maxSize, t.underflow) =
      (s.totalCount, s.connecting, s.released, s.nextConn, s.maxSize, s.underflow)) :
    Account hand' t := by
  simp only [Prod.mk.injEq] at same
  obtain ⟨total, connecting, released, nextConn, maxSize, underflow⟩ := same
  constructor
  · rw [total, conns, connecting, account.total]
  · rw [conns, released, nextConn, account.whole]
  · rw [total, maxSize]
    exact account.bound
  · rw [underflow, account.counted]

theorem release_total (positive : 1 ≤ s.totalCount.toNat) (conn : Option Nat) :
    (s.release conn).totalCount.toNat = s.totalCount.toNat - 1 ∧
      (s.release conn).underflow = s.underflow := by
  have one_le : (1 : UInt64) ≤ s.totalCount := UInt64.le_iff_toNat_le.mpr positive
  have nonzero : s.totalCount ≠ 0 := by
    intro zero
    simp [zero] at positive
  refine ⟨UInt64.toNat_sub_of_le _ _ one_le, ?_⟩
  simp [State.release, nonzero]

theorem Account.release (account : Account {c} s) : Account 0 (s.release (some c)) := by
  have total := account.total
  rw [Multiset.card_add, Multiset.card_singleton] at total
  obtain ⟨lowered, underflow⟩ := release_total (by omega : 1 ≤ s.totalCount.toNat) (some c)
  refine ⟨?_, ?_, ?_, underflow.trans account.counted⟩
  · show _ = (s.conns + 0).card + s.connecting.length
    rw [add_zero]
    omega
  · show s.conns + 0 + ((c :: s.released : List Nat) : Multiset Nat) = Multiset.range s.nextConn
    rw [← account.whole, add_zero, ← Multiset.cons_coe, ← Multiset.singleton_add, add_assoc]
  · have bound := UInt64.le_iff_toNat_le.mp account.bound
    apply UInt64.le_iff_toNat_le.mpr
    show _ ≤ s.maxSize.toNat
    omega

theorem Account.releaseConnecting (account : Account 0 s) (mem : w ∈ s.connecting) :
    Account 0 ({ s with connecting := s.connecting.erase w }.release none) := by
  have length := length_erase_of_mem mem
  have some_connecting := length_pos_of_mem mem
  have total := account.total
  obtain ⟨lowered, underflow⟩ := release_total
    (show 1 ≤ { s with connecting := s.connecting.erase w }.totalCount.toNat by
      show 1 ≤ s.totalCount.toNat
      omega) none
  refine ⟨?_, account.whole, ?_, underflow.trans account.counted⟩
  · show _ = (s.conns + 0).card + (s.connecting.erase w).length
    rw [lowered]
    show s.totalCount.toNat - 1 = _
    omega
  · have bound := UInt64.le_iff_toNat_le.mp account.bound
    apply UInt64.le_iff_toNat_le.mpr
    rw [lowered]
    show s.totalCount.toNat - 1 ≤ s.maxSize.toNat
    omega

/-- Queued and connecting waiters are distinct and, unless cancelled, wait for a value. -/
structure Queue (s : State) : Prop where
  nodup : (s.waiters ++ s.connecting).Nodup
  known : ∀ w ∈ s.waiters ++ s.connecting, w < s.nextWaiter
  waiting : ∀ w ∈ s.waiters ++ s.connecting, (s.waiter w).cancelled = false →
    (s.waiter w).promise = .unsatisfied ∧ (s.waiter w).done = false

theorem Queue.shrink (queue : Queue s)
    (sublist : (t.waiters ++ t.connecting).Sublist (s.waiters ++ s.connecting))
    (nextWaiter : s.nextWaiter ≤ t.nextWaiter)
    (kept : ∀ w ∈ t.waiters ++ t.connecting, t.waiter w = s.waiter w ∨
      (t.waiter w).cancelled = true) : Queue t where
  nodup := queue.nodup.sublist sublist
  known w mem := (queue.known w (sublist.subset mem)).trans_le nextWaiter
  waiting w mem open_ := by
    obtain same | cancelled := kept w mem
    · rw [same] at open_ ⊢
      exact queue.waiting w (sublist.subset mem) open_
    · rw [cancelled] at open_
      cases open_

theorem Queue.skipCancelled (queue : Queue s) : Queue s.skipCancelled :=
  queue.shrink (dropWhile_sublist _ |>.append_right _) le_rfl fun _ _ => .inl rfl

theorem Account.skipCancelled (account : Account hand s) : Account hand s.skipCancelled :=
  account.move rfl rfl

/-- What `dispatch` does once the cancelled waiters in front are gone. -/
inductive Dispatches (s : State) : State → Prop where
  | nothing (stuck : s.waiters = [] ∨ s.idle = [] ∧ ¬ s.totalCount < s.maxSize) : Dispatches s s
  | handed (front : s.waiters = w :: waiters) (available : s.idle = c :: idle)
      (satisfied : s.setValue w c = some after) :
      Dispatches s { after with idle := idle, waiters := waiters }
  | spawned (front : s.waiters = w :: waiters) (none_idle : s.idle = [])
      (slot : s.totalCount < s.maxSize) :
      Dispatches s { s with
        totalCount := s.totalCount + 1
        waiters := waiters
        connecting := s.connecting ++ [w] }

theorem skipCancelled_front (front : s.skipCancelled.waiters = w :: waiters) :
    (s.waiter w).cancelled = false := by
  have head := head?_dropWhile_not (fun w => (s.waiter w).cancelled) s.waiters
  simp only [State.skipCancelled] at front
  simpa only [front, head?_cons] using head

theorem setValue_open (unsatisfied : (s.waiter w).promise = .unsatisfied) (c : Nat) :
    s.setValue w c = some
      { s.setWaiter w { s.waiter w with promise := .value c } with
        handovers := s.handovers ++ [(w, c, (s.conn c).isAlive)] } := by
  simp only [State.setValue, unsatisfied]

theorem setException_open (unsatisfied : (s.waiter w).promise = .unsatisfied) (error : Error) :
    s.setException w error =
      some (s.setWaiter w { s.waiter w with promise := .exception error }) := by
  simp only [State.setException, unsatisfied]

/-- Queued waiters that are not cancelled have unsatisfied promises, so `dispatch` never throws. -/
theorem dispatch_dispatches (queue : Queue s) : Dispatches s.skipCancelled (dispatch s) := by
  unfold dispatch
  simp only
  split
  · rename_i empty
    exact .nothing (.inl empty)
  rename_i w waiters front
  have mem : w ∈ s.skipCancelled.waiters ++ s.skipCancelled.connecting := by simp [front]
  have open_ := (queue.skipCancelled.waiting w mem (skipCancelled_front (s := s) front)).1
  split
  · rename_i c idle available
    have satisfied := setValue_open open_ c
    rw [satisfied]
    exact .handed front available satisfied
  · rename_i none_idle
    split
    · exact .spawned front none_idle ‹_›
    · exact .nothing (.inr ⟨none_idle, ‹_›⟩)

theorem setValue_conns (known : w < s.nextWaiter) (fresh : (s.waiter w).done = false)
    (satisfied : s.setValue w c = some t) : t.conns = s.conns + {c} := by
  unfold State.setValue at satisfied
  split at satisfied <;> cases satisfied
  rename_i unsatisfied
  have changed := setWaiter_conns s { s.waiter w with promise := .value c } known
  have before : (s.waiter w).carried = 0 := by simp only [Waiter.carried, fresh, unsatisfied]
  have after : ({ s.waiter w with promise := .value c } : Waiter).carried = {c} := by
    simp only [Waiter.carried, fresh]
  rw [before, after, add_zero] at changed
  exact changed

theorem setValue_frame (satisfied : s.setValue w c = some t) :
    t = { s.setWaiter w { s.waiter w with promise := .value c } with
      handovers := s.handovers ++ [(w, c, (s.conn c).isAlive)] } := by
  unfold State.setValue at satisfied
  split at satisfied <;> cases satisfied
  rfl

theorem idle_conns (s : State) (c : Nat) (idle : List Nat) :
    { s with idle := idle }.conns + {c} = { s with idle := c :: idle }.conns := by
  simp only [State.conns, ← Multiset.cons_coe, ← Multiset.singleton_add]
  ac_rfl

theorem spawn_total (slot : s.totalCount < s.maxSize) :
    (s.totalCount + 1).toNat = s.totalCount.toNat + 1 := by
  have below := UInt64.lt_iff_toNat_lt.mp slot
  have limit := s.maxSize.toNat_lt
  rw [UInt64.toNat_add, UInt64.toNat_one, Nat.mod_eq_of_lt (by omega)]

theorem Dispatches.account (queue : Queue s) (account : Account 0 s) (opens : ∀ w waiters,
    s.waiters = w :: waiters → (s.waiter w).cancelled = false) (did : Dispatches s t) :
    Account 0 t := by
  cases did with
  | nothing => exact account
  | @handed w waiters c idle after front available satisfied =>
    have mem : w ∈ s.waiters ++ s.connecting := by simp [front]
    have fresh := (queue.waiting w mem (opens w waiters front)).2
    have carried := setValue_conns (queue.known w mem) fresh satisfied
    have left := idle_conns after c idle
    have frame := setValue_frame satisfied
    have same : { after with idle := c :: idle } = after := by
      rw [frame, ← available]
      rfl
    rw [same, carried] at left
    have conns : { after with idle := idle, waiters := waiters }.conns = s.conns :=
      add_right_cancel left
    subst frame
    exact account.move (by rw [conns]) rfl
  | @spawned w waiters front none_idle slot =>
    have below := UInt64.lt_iff_toNat_lt.mp slot
    have raised := spawn_total slot
    refine ⟨?_, account.whole, ?_, account.counted⟩
    · show (s.totalCount + 1).toNat = (s.conns + 0).card + (s.connecting ++ [w]).length
      rw [raised, account.total, length_append, length_singleton, add_assoc]
    · show (s.totalCount + 1).toNat ≤ s.maxSize.toNat
      omega

theorem Dispatches.queue (queue : Queue s) (did : Dispatches s t) : Queue t := by
  cases did with
  | nothing => exact queue
  | @handed w waiters c idle after front available satisfied =>
    have nodup := queue.nodup
    rw [front] at nodup
    rw [setValue_frame satisfied]
    refine queue.shrink ?_ le_rfl fun v mem => .inl ?_
    · rw [front]
      exact sublist_cons_self _ _
    · have other : v ≠ w := fun same => (nodup_cons.mp nodup).1 (same ▸ mem)
      exact update_of_ne other _ _
  | @spawned w waiters front none_idle slot =>
    have perm : (waiters ++ (s.connecting ++ [w])).Perm (s.waiters ++ s.connecting) := by
      rw [front, ← append_assoc]
      exact perm_append_singleton _ _
    exact ⟨perm.nodup_iff.mpr queue.nodup, fun v mem => queue.known v (perm.mem_iff.mp mem),
      fun v mem => queue.waiting v (perm.mem_iff.mp mem)⟩

structure Frame (s t : State) : Prop where
  conn : t.conn = s.conn
  nextHandle : t.nextHandle = s.nextHandle
  nextWaiter : t.nextWaiter = s.nextWaiter
  maxSize : t.maxSize = s.maxSize
  alreadySatisfied : t.alreadySatisfied = s.alreadySatisfied
  cancelled : ∀ w, (t.waiter w).cancelled = (s.waiter w).cancelled
  done : ∀ w, (t.waiter w).done = (s.waiter w).done

theorem Dispatches.frame (did : Dispatches s t) : Frame s t := by
  cases did with
  | nothing | spawned => exact ⟨rfl, rfl, rfl, rfl, rfl, fun _ => rfl, fun _ => rfl⟩
  | @handed w waiters c idle after front available satisfied =>
    rw [setValue_frame satisfied]
    refine ⟨rfl, rfl, rfl, rfl, rfl, fun v => ?_, fun v => ?_⟩ <;>
    · simp only [State.setWaiter, update_apply]
      split
      · subst v
        rfl
      · rfl

theorem dispatch_frame (queue : Queue s) : Frame s (dispatch s) :=
  let frame := (dispatch_dispatches queue).frame
  { frame with }

/-- The invariant of the pool, with the connections that the current step has in hand. -/
structure Invariant (hand : Multiset Nat) (s : State) : Prop where
  account : Account hand s
  queue : Queue s
  handlers : ∀ c h, (s.conn c).brokenHandler = some h → h < s.nextHandle

theorem initial_invariant (maxSize : UInt64) : Invariant 0 { maxSize := maxSize } where
  account := ⟨rfl, rfl, UInt64.zero_le, rfl⟩
  queue := ⟨nodup_nil, nofun, nofun⟩
  handlers := nofun

theorem dispatch_invariant (inv : Invariant 0 s) : Invariant 0 (dispatch s) where
  account := (dispatch_dispatches inv.queue).account inv.queue.skipCancelled
    inv.account.skipCancelled fun _ _ front => skipCancelled_front (s := s) front
  queue := (dispatch_dispatches inv.queue).queue inv.queue.skipCancelled
  handlers := by
    rw [(dispatch_frame inv.queue).conn, (dispatch_frame inv.queue).nextHandle]
    exact inv.handlers

theorem Invariant.release (inv : Invariant {c} s) : Invariant 0 (s.release (some c)) :=
  ⟨inv.account.release, { inv.queue with }, inv.handlers⟩

theorem pushIdle_invariant (inv : Invariant {c} s) :
    Invariant 0 { s with idle := s.idle ++ [c] } := by
  have conns : { s with idle := s.idle ++ [c] }.conns + 0 = s.conns + {c} := by
    simp only [State.conns, ← Multiset.coe_add, Multiset.coe_singleton]
    ac_rfl
  exact ⟨inv.account.move conns rfl, { inv.queue with }, inv.handlers⟩

theorem returnConnection_invariant (inv : Invariant {c} s) :
    Invariant 0 (returnConnection s c) := by
  unfold returnConnection
  split
  · exact dispatch_invariant inv.release
  · exact dispatch_invariant (pushIdle_invariant inv)

theorem schedule_invariant (inv : Invariant {task.conn} s) (inline : Bool) :
    Invariant 0 (schedule s inline task) := by
  unfold schedule
  split
  · cases task with
    | returnConnection c => exact returnConnection_invariant inv
    | detachConnection c => exact dispatch_invariant inv.release
  have conns : { s with tasks := s.tasks ++ [task] }.conns + 0 = s.conns + {task.conn} := by
    simp only [State.conns, map_append, ← Multiset.coe_add]
    ac_rfl
  exact ⟨inv.account.move conns rfl, { inv.queue with }, inv.handlers⟩

theorem Queue.setWaiter (queue : Queue s)
    (kept : w ∈ s.waiters ++ s.connecting → waiter.cancelled = true) :
    Queue (s.setWaiter w waiter) := by
  refine queue.shrink (List.Sublist.refl _) le_rfl fun v mem => ?_
  simp only [State.setWaiter, update_apply]
  split
  · subst v
    exact .inr (kept mem)
  · exact .inl rfl

theorem setValue_invariant (inv : Invariant {c} s) (known : w < s.nextWaiter)
    (left : w ∉ s.waiters ++ s.connecting) (fresh : (s.waiter w).done = false)
    (satisfied : s.setValue w c = some t) : Invariant 0 t := by
  have conns := setValue_conns known fresh satisfied
  have frame := setValue_frame satisfied
  subst frame
  have queue : Queue (s.setWaiter w { s.waiter w with promise := .value c }) :=
    inv.queue.setWaiter fun mem => absurd mem left
  exact ⟨inv.account.move (by rw [conns, add_zero]) rfl, { queue with }, inv.handlers⟩

theorem setWaiter_invariant (inv : Invariant hand s) (waiter : Waiter) (taken : Multiset Nat)
    (known : w < s.nextWaiter) (carried : waiter.carried + taken = (s.waiter w).carried)
    (kept : w ∈ s.waiters ++ s.connecting → waiter.cancelled = true) :
    Invariant (hand + taken) (s.setWaiter w waiter) := by
  have changed := setWaiter_conns s waiter known
  have conns : (s.setWaiter w waiter).conns + (hand + taken) = s.conns + hand := by
    apply add_right_cancel (b := waiter.carried)
    calc
      _ = (s.setWaiter w waiter).conns + (waiter.carried + taken) + hand := by ac_rfl
      _ = s.conns + waiter.carried + hand := by rw [carried, changed]
      _ = _ := by ac_rfl
  exact ⟨inv.account.move conns rfl, inv.queue.setWaiter kept, inv.handlers⟩

theorem newHandle_invariant (inv : Invariant {c} s) :
    Invariant 0 { (s.setHandle s.nextHandle { impl := c }).setConn c
        { s.conn c with brokenHandler := some s.nextHandle } with
      nextHandle := s.nextHandle + 1 } := by
  refine ⟨inv.account.move ?_ rfl, { inv.queue with }, fun d h installed => ?_⟩
  · have added := Table.sum_update_next (n := s.nextHandle) Handle.held s.handle { impl := c }
    have held : Handle.held { impl := c } = {c} := rfl
    simp only [State.conns, State.setConn, State.setHandle, added, held]
    ac_rfl
  simp only [State.setConn, update_apply] at installed
  show h < s.nextHandle + 1
  split at installed
  · cases installed
    omega
  · have before := inv.handlers d h installed
    omega

theorem resume_invariant (inv : Invariant 0 s) (known : w < s.nextWaiter)
    (waiting : (s.waiter w).done = false) (satisfied : (s.waiter w).promise ≠ .unsatisfied) :
    Invariant 0 (resume s w) := by
  have kept : w ∈ s.waiters ++ s.connecting →
      ({ s.waiter w with done := true } : Waiter).cancelled = true := by
    intro mem
    cases token : (s.waiter w).cancelled with
    | true => rfl
    | false => exact absurd (inv.queue.waiting w mem token).1 satisfied
  have none_left : ({ s.waiter w with done := true } : Waiter).carried = 0 := rfl
  unfold resume
  simp only [State.setWaiter, update_self]
  split
  · rename_i c value
    apply newHandle_invariant (s := s.setWaiter w { s.waiter w with done := true })
    have carried : (s.waiter w).carried = {c} := by simp only [Waiter.carried, waiting, value]
    have taken := setWaiter_invariant inv { s.waiter w with done := true } {c} known
      (by rw [none_left, carried, zero_add]) kept
    rwa [zero_add] at taken
  rename_i other
  have none_taken : (s.waiter w).carried = 0 := by
    unfold Waiter.carried
    split
    · exact absurd ‹_› (other _)
    · rfl
  exact setWaiter_invariant inv { s.waiter w with done := true } 0 known
    (by rw [none_left, none_taken, zero_add]) kept

theorem push_invariant (inv : Invariant 0 s) (carried : waiter.carried = 0)
    (waiting : waiter.cancelled = false → waiter.promise = .unsatisfied ∧ waiter.done = false) :
    Invariant 0 (s.push waiter) := by
  have unknown : s.nextWaiter ∉ s.waiters ++ s.connecting := fun mem =>
    (inv.queue.known _ mem).false
  have perm : (s.waiters ++ [s.nextWaiter] ++ s.connecting).Perm
      (s.nextWaiter :: (s.waiters ++ s.connecting)) := by
    rw [append_assoc]
    exact perm_middle
  refine ⟨inv.account.move ?_ rfl, ⟨?_, ?_, ?_⟩, inv.handlers⟩
  · have added := Table.sum_update_next (n := s.nextWaiter) Waiter.carried s.waiter waiter
    simp only [State.conns, State.push, State.setWaiter, added, carried, add_zero]
  · exact perm.nodup_iff.mpr (nodup_cons.mpr ⟨unknown, inv.queue.nodup⟩)
  · intro w mem
    show w < s.nextWaiter + 1
    rcases mem_cons.mp (perm.mem_iff.mp mem) with rfl | old
    · omega
    · have before := inv.queue.known w old
      omega
  intro w mem
  simp only [State.push, State.setWaiter]
  rcases mem_cons.mp (perm.mem_iff.mp mem) with rfl | old
  · rw [update_self]
    exact waiting
  · have other : w ≠ s.nextWaiter := fun same => unknown (same ▸ old)
    rw [update_of_ne other]
    exact inv.queue.waiting w old

theorem pushed_invariant (inv : Invariant 0 s) (cancelled : Bool) :
    Invariant 0 (s.push (onCancel cancelled)) :=
  push_invariant inv (by cases cancelled <;> rfl) (by cases cancelled <;> simp [onCancel])

theorem acquire_invariant (inv : Invariant 0 s) (cancelled : Bool) :
    Invariant 0 (acquire s cancelled) := by
  have pushed := pushed_invariant inv cancelled
  have frame := dispatch_frame pushed.queue
  unfold acquire
  simp only
  split
  · exact dispatch_invariant pushed
  refine resume_invariant (dispatch_invariant pushed) ?_ ?_ ‹_›
  · rw [frame.nextWaiter]
    exact Nat.lt_succ_self _
  · rw [frame.done]
    simp only [State.push, State.setWaiter, update_self]
    cases cancelled <;> rfl

theorem cancel_invariant (inv : Invariant 0 s) (w : Nat) : Invariant 0 (cancel s w) := by
  unfold cancel
  split
  · rename_i able
    have known : w < s.nextWaiter := by
      simp only [State.alive, Bool.and_eq_true, decide_eq_true_eq] at able
      exact able.1.1
    simp only [State.setWaiter, State.setException, update_self]
    split
    · have marked := setWaiter_invariant inv { s.waiter w with cancelled := true } 0 known
        (by simp only [Waiter.carried, add_zero]) fun _ => rfl
      exact ⟨⟨marked.account.total, marked.account.whole, marked.account.bound,
        marked.account.counted⟩, ⟨marked.queue.nodup, marked.queue.known, marked.queue.waiting⟩,
        marked.handlers⟩
    · rename_i t satisfied
      split at satisfied <;> cases satisfied
      rename_i unsatisfied
      rw [update_idem]
      exact setWaiter_invariant inv _ 0 known (by simp [Waiter.carried, unsatisfied]) fun _ => rfl
  · exact inv

theorem Queue.erase_connecting (queue : Queue s) (w : Nat) :
    Queue { s with connecting := s.connecting.erase w } :=
  queue.shrink ((List.Sublist.refl _).append erase_sublist) le_rfl fun _ _ => .inl rfl

theorem Queue.erased (queue : Queue s) (mem : w ∈ s.connecting) :
    w ∉ s.waiters ++ s.connecting.erase w := by
  obtain ⟨_, connecting, apart⟩ := nodup_append.mp queue.nodup
  simp only [mem_append, not_or]
  exact ⟨fun queued => apart w queued w mem rfl, connecting.not_mem_erase⟩

section
variable (inv : Invariant 0 s)
include inv

theorem establish_invariant (mem : w ∈ s.connecting) : Invariant {s.nextConn} (s.establish w) := by
  have length := length_erase_of_mem mem
  have some_connecting := length_pos_of_mem mem
  have total := inv.account.total
  have queue := inv.queue.erase_connecting w
  refine ⟨⟨?_, ?_, inv.account.bound, inv.account.counted⟩, { queue with }, fun d h installed => ?_⟩
  · show s.totalCount.toNat = (s.conns + {s.nextConn}).card + (s.connecting.erase w).length
    rw [Multiset.card_add] at total ⊢
    simp only [Multiset.card_zero, Multiset.card_singleton] at total ⊢
    omega
  · show s.conns + {s.nextConn} + s.released = Multiset.range (s.nextConn + 1)
    rw [Multiset.range_succ, ← inv.account.whole, ← Multiset.singleton_add]
    ac_rfl
  · simp only [State.establish, State.setConn, update_apply] at installed
    split at installed
    · cases installed
    · exact inv.handlers d h installed

theorem connected_invariant (mem : w ∈ s.connecting) : Invariant 0 (connected s w) := by
  have held := establish_invariant inv mem
  have queued : w ∈ s.waiters ++ s.connecting := mem_append_right _ mem
  unfold connected
  simp only
  split
  · rename_i token
    have waiting := inv.queue.waiting w queued ((Bool.not_eq_true' _).mp token)
    have satisfied := setValue_open (s := s.establish w) waiting.1 s.nextConn
    rw [satisfied]
    exact setValue_invariant held (inv.queue.known w queued) (inv.queue.erased mem) waiting.2
      satisfied
  · exact dispatch_invariant (pushIdle_invariant held)

theorem abandon_invariant (mem : w ∈ s.connecting) : Invariant 0 (s.abandon w) := by
  have queue := inv.queue.erase_connecting w
  exact ⟨inv.account.releaseConnecting mem, { queue with }, inv.handlers⟩

theorem failed_invariant (mem : w ∈ s.connecting)
    (token : (s.waiter w).cancelled = false) (error : Error) :
    Invariant 0 ((s.abandon w).setWaiter w
      { (s.abandon w).waiter w with promise := .exception error }) := by
  have queued : w ∈ s.waiters ++ s.connecting := mem_append_right _ mem
  refine setWaiter_invariant (abandon_invariant inv mem) _ 0 (inv.queue.known w queued) ?_
    fun queued => absurd queued (inv.queue.erased mem)
  have waiting := inv.queue.waiting w queued token
  show Waiter.carried { s.waiter w with promise := .exception error } + 0 = (s.waiter w).carried
  simp only [Waiter.carried, waiting.1, waiting.2, add_zero]

/-- The slot goes back to the pool, and a waiter whose token is open is told of the error first. -/
theorem connectFailed_cases (mem : w ∈ s.connecting) (error : Error) :
    ((s.waiter w).cancelled = false ∧ connectFailed s w error =
      dispatch ((s.abandon w).setWaiter w
        { (s.abandon w).waiter w with promise := .exception error })) ∨
      connectFailed s w error = dispatch (s.abandon w) := by
  have queued : w ∈ s.waiters ++ s.connecting := mem_append_right _ mem
  unfold connectFailed
  simp only
  split
  · rename_i token
    have open_ : (s.waiter w).cancelled = false := (Bool.not_eq_true' _).mp token
    left
    rw [setException_open (s := s.abandon w) (inv.queue.waiting w queued open_).1]
    exact ⟨open_, rfl⟩
  · exact .inr rfl

theorem connectFailed_invariant (mem : w ∈ s.connecting) (error : Error) :
    Invariant 0 (connectFailed s w error) := by
  rcases connectFailed_cases inv mem error with ⟨token, told⟩ | silent
  · rw [told]
    exact dispatch_invariant (failed_invariant inv mem token error)
  · rw [silent]
    exact dispatch_invariant (abandon_invariant inv mem)

theorem setHandle_invariant (known : h < s.nextHandle) (handle : Handle)
    (held : handle.held + taken = (s.handle h).held) : Invariant taken (s.setHandle h handle) := by
  have changed := setHandle_conns s handle known
  have conns : (s.setHandle h handle).conns + taken = s.conns + 0 := by
    apply add_right_cancel (b := handle.held)
    rw [add_zero, ← changed, ← held, add_assoc, add_comm taken]
  exact ⟨inv.account.move conns rfl, { inv.queue with }, inv.handlers⟩

theorem taken_invariant (known : h < s.nextHandle)
    (attached : (s.handle h).detached = false) {task : Nat → Task}
    (names : ∀ c, (task c).conn = c) : Invariant {(task (s.handle h).impl).conn}
      (s.setHandle h { s.handle h with detached := true }) := by
  apply setHandle_invariant inv known _
  simp only [Handle.held, names, attached, if_pos, zero_add, Bool.false_eq_true, if_false]

theorem testAndSet_invariant (known : h < s.nextHandle) (inline : Bool)
    (task : Nat → Task) (names : ∀ c, (task c).conn = c) :
    Invariant 0 (testAndSet s h inline task) := by
  unfold testAndSet
  split
  · rename_i attached
    exact schedule_invariant (taken_invariant inv known ((Bool.not_eq_true' _).mp attached) names)
      inline
  · rename_i detached
    apply setHandle_invariant inv known _
    simp only [Handle.held, if_pos, add_zero]
    rw [if_pos (by simpa using detached)]

theorem destroy_invariant (known : h < s.nextHandle) (inline : Bool) :
    Invariant 0 (destroy s h inline) := by
  have marked := setHandle_invariant inv known { s.handle h with destroyed := true } (add_zero _)
  exact testAndSet_invariant marked known inline .returnConnection fun _ => rfl

theorem setConn_invariant (conn : Conn) (handler : conn.brokenHandler = (s.conn c).brokenHandler) :
    Invariant 0 (s.setConn c conn) := by
  refine ⟨inv.account.move rfl rfl, { inv.queue with }, fun d h installed => ?_⟩
  simp only [State.setConn, update_apply] at installed
  split at installed
  · exact inv.handlers c h (handler ▸ installed)
  · exact inv.handlers d h installed

theorem handleBroken_invariant (c : Nat) (inline : Bool) :
    Invariant 0 (handleBroken s c inline) := by
  have broken := setConn_invariant inv { s.conn c with broken := true } rfl
  unfold handleBroken
  simp only
  split
  · exact inv
  split
  · exact broken
  · rename_i h installed
    exact testAndSet_invariant broken (broken.handlers c h installed) inline _ fun _ => rfl

theorem pop_invariant (queued : s.tasks = task :: tasks) :
    Invariant {task.conn} { s with tasks := tasks } := by
  have conns : { s with tasks := tasks }.conns + {task.conn} = s.conns + 0 := by
    simp only [State.conns, queued, List.map_cons, ← Multiset.cons_coe, ← Multiset.singleton_add]
    ac_rfl
  exact ⟨inv.account.move conns rfl, { inv.queue with }, inv.handlers⟩

end

inductive Effect (s : State) : Action → State → Prop
  | acquire : Effect s (.acquire cancelled) (acquire s cancelled)
  | resume (known : w < s.nextWaiter) (waiting : (s.waiter w).done = false)
    (satisfied : (s.waiter w).promise ≠ .unsatisfied) : Effect s (.resume w) (resume s w)
  | cancel : Effect s (.cancel w) (cancel s w)
  | connected (mem : w ∈ s.connecting) : Effect s (.connected w) (connected s w)
  | connectFailed (mem : w ∈ s.connecting) :
    Effect s (.connectFailed w error) (connectFailed s w error)
  | destroy (known : h < s.nextHandle) : Effect s (.destroy h here) (destroy s h here)
  | lose : Effect s (.lose c) (s.setConn c { s.conn c with lost := true })
  | handleBroken : Effect s (.handleBroken c here) (handleBroken s c here)
  | run (first : s.tasks = task :: tasks) :
    Effect s .run (schedule { s with tasks := tasks } true task)

theorem effect_of_step (took : step s label = some t) : Effect s label t := by
  cases label with
  | acquire | cancel =>
    cases took
    constructor
  | resume w =>
    obtain ⟨⟨known, waiting, satisfied⟩, rfl⟩ := of_ite took
    exact .resume known waiting satisfied
  | connected | connectFailed =>
    obtain ⟨mem, rfl⟩ := of_ite took
    constructor
    exact mem
  | destroy h inline =>
    obtain ⟨⟨known, -⟩, rfl⟩ := of_ite took
    exact .destroy known
  | lose | handleBroken =>
    obtain ⟨-, rfl⟩ := of_ite took
    constructor
  | run =>
    simp only [step] at took
    split at took <;> cases took
    exact .run ‹_›

theorem step_invariant (inv : Invariant 0 s) (took : step s label = some t) : Invariant 0 t := by
  cases effect_of_step took with
  | acquire => exact acquire_invariant inv _
  | resume known waiting satisfied => exact resume_invariant inv known waiting satisfied
  | cancel => exact cancel_invariant inv _
  | connected mem => exact connected_invariant inv mem
  | connectFailed mem => exact connectFailed_invariant inv mem _
  | destroy known => exact destroy_invariant inv known _
  | lose => exact setConn_invariant inv _ rfl
  | handleBroken => exact handleBroken_invariant inv _ _
  | run first => exact schedule_invariant (pop_invariant inv first) true

/-- The connections and the objects that hold them, without the queues of the pool; and its limit. -/
structure Objects where
  conn : Nat → Conn
  handle : Nat → Handle
  nextConn : Nat
  nextHandle : Nat
  maxSize : UInt64

def State.objects (s : State) : Objects :=
  ⟨s.conn, s.handle, s.nextConn, s.nextHandle, s.maxSize⟩

@[simp] theorem setWaiter_objects : (s.setWaiter w waiter).objects = s.objects := rfl
@[simp] theorem skipCancelled_objects : s.skipCancelled.objects = s.objects := rfl
@[simp] theorem push_objects : (s.push waiter).objects = s.objects := rfl
@[simp] theorem abandon_objects : (s.abandon w).objects = s.objects := rfl

theorem setValue_objects (satisfied : s.setValue w c = some t) : t.objects = s.objects := by
  rw [setValue_frame satisfied]
  rfl

theorem setException_objects (satisfied : s.setException w error = some t) :
    t.objects = s.objects := by
  unfold State.setException at satisfied
  split at satisfied <;> cases satisfied
  rfl

@[simp] theorem dispatch_objects (s : State) : (dispatch s).objects = s.objects := by
  have front := skipCancelled_objects (s := s)
  simp only [dispatch]
  cases s.skipCancelled.waiters with
  | nil => exact front
  | cons w waiters =>
    cases s.skipCancelled.idle with
    | nil =>
      by_cases slot : s.skipCancelled.totalCount < s.skipCancelled.maxSize
      · simp only [if_pos slot]
        exact front
      · simp only [if_neg slot]
        exact front
    | cons c idle =>
      dsimp only
      cases satisfied : s.skipCancelled.setValue w c with
      | none => exact front
      | some t => exact (setValue_objects satisfied).trans front

@[simp] theorem schedule_objects (s : State) (inline : Bool) (task : Task) :
    (schedule s inline task).objects = s.objects := by
  cases inline with
  | false => rfl
  | true =>
    cases task with
    | detachConnection c => exact dispatch_objects _
    | returnConnection c =>
      simp only [schedule, returnConnection, if_true]
      split
      · exact dispatch_objects _
      · exact dispatch_objects _

theorem testAndSet_objects (s : State) (h : Nat) (inline : Bool) (task : Nat → Task) :
    (testAndSet s h inline task).objects =
      { s.objects with handle := update s.handle h { s.handle h with detached := true } } := by
  simp only [testAndSet]
  split
  · rw [schedule_objects]
    rfl
  · rfl

theorem destroy_objects (s : State) (h : Nat) (inline : Bool) :
    (destroy s h inline).objects = { s.objects with
      handle := update s.handle h { s.handle h with detached := true, destroyed := true } } := by
  rw [destroy, testAndSet_objects]
  simp only [State.setHandle, State.objects, update_self, update_idem]

inductive Touches (o : Objects) : Objects → Prop where
  | nothing : Touches o o
  | established : Touches o { o with
      conn := update o.conn o.nextConn {}
      nextConn := o.nextConn + 1 }
  | handed (c : Nat) : c < o.nextConn → Touches o { o with
      conn := update o.conn c { o.conn c with brokenHandler := some o.nextHandle }
      handle := update o.handle o.nextHandle { impl := c }
      nextHandle := o.nextHandle + 1 }
  | lost (c : Nat) : Touches o { o with
      conn := update o.conn c { o.conn c with lost := true } }
  | broke (c : Nat) : (o.conn c).brokenHandler = none → Touches o { o with
      conn := update o.conn c { o.conn c with broken := true } }
  | detached (c h : Nat) : (o.conn c).brokenHandler = some h → Touches o { o with
      conn := update o.conn c { o.conn c with broken := true }
      handle := update o.handle h { o.handle h with detached := true } }

theorem mem_conns_lt (inv : Invariant 0 s) (mem : c ∈ s.conns) : c < s.nextConn := by
  have whole := inv.account.whole
  rw [add_zero] at whole
  have ranged : c ∈ Multiset.range s.nextConn := by
    rw [← whole]
    exact Multiset.mem_add.mpr (.inl mem)
  exact Multiset.mem_range.mp ranged

theorem carried_mem (known : w < s.nextWaiter) (waiting : (s.waiter w).done = false)
    (value : (s.waiter w).promise = .value c) :
    c ∈ ∑ v ∈ range s.nextWaiter, (s.waiter v).carried := by
  refine Multiset.mem_sum.mpr ⟨w, mem_range.mpr known, ?_⟩
  rw [Waiter.carried, waiting, value]
  exact Multiset.mem_singleton_self c

theorem resume_touches (inv : Invariant 0 s) (known : w < s.nextWaiter)
    (waiting : (s.waiter w).done = false) : Touches s.objects (resume s w).objects := by
  have same : ((s.setWaiter w { s.waiter w with done := true }).waiter w).promise =
      (s.waiter w).promise := by
    simp only [State.setWaiter, update_self]
  simp only [resume, same]
  cases promise : (s.waiter w).promise with
  | unsatisfied | exception => exact .nothing
  | value c =>
    have carried := carried_mem known waiting promise
    refine .handed c (mem_conns_lt inv ?_)
    simp only [State.conns, Multiset.mem_add]
    exact .inl (.inl (.inr carried))

theorem acquire_touches (inv : Invariant 0 s) (cancelled : Bool) :
    Touches s.objects (acquire s cancelled).objects := by
  have pushed := pushed_invariant inv cancelled
  have frame := dispatch_frame pushed.queue
  have same : (dispatch (s.push (onCancel cancelled))).objects = s.objects := by
    rw [dispatch_objects, push_objects]
  simp only [acquire]
  split
  · rw [same]
    exact .nothing
  rw [← same]
  apply resume_touches (dispatch_invariant pushed)
  · rw [frame.nextWaiter]
    exact Nat.lt_succ_self _
  rw [frame.done]
  simp only [State.push, State.setWaiter, update_self, onCancel]
  split
  · rfl
  · rfl

theorem establish_touches (s : State) (w : Nat) : Touches s.objects (s.establish w).objects :=
  .established

theorem connected_touches (s : State) (w : Nat) : Touches s.objects (connected s w).objects := by
  simp only [connected]
  split
  · split
    · exact establish_touches s w
    · rename_i satisfied
      rw [setValue_objects satisfied]
      exact establish_touches s w
  · rw [dispatch_objects]
    exact establish_touches s w

theorem connectFailed_objects (s : State) (w : Nat) (error : Error) :
    (connectFailed s w error).objects = s.objects := by
  simp only [connectFailed]
  split
  · split
    · rfl
    · rename_i satisfied
      rw [dispatch_objects, setException_objects satisfied, abandon_objects]
  · rw [dispatch_objects, abandon_objects]

theorem cancel_objects (s : State) (w : Nat) : (cancel s w).objects = s.objects := by
  simp only [cancel]
  split
  · split
    · rfl
    · rename_i satisfied
      rw [setException_objects satisfied, setWaiter_objects]
  · rfl

theorem handleBroken_touches (s : State) (c : Nat) (inline : Bool) :
    Touches s.objects (handleBroken s c inline).objects := by
  have kept : ((s.setConn c { s.conn c with broken := true }).conn c).brokenHandler =
      (s.conn c).brokenHandler := by
    simp only [State.setConn, update_self]
  simp only [handleBroken]
  split
  · exact .nothing
  split
  · rename_i handler
    have broke : Touches s.objects _ := .broke c (kept.symm.trans handler)
    exact broke
  · rename_i h handler
    have detached : Touches s.objects _ := .detached c h (kept.symm.trans handler)
    rw [testAndSet_objects]
    exact detached

theorem step_touches (inv : Invariant 0 s) (kind : ∀ h inline, label ≠ .destroy h inline)
    (took : step s label = some t) : Touches s.objects t.objects := by
  cases effect_of_step took with
  | acquire => exact acquire_touches inv _
  | resume known waiting => exact resume_touches inv known waiting
  | cancel =>
    rw [cancel_objects]
    exact .nothing
  | connected => exact connected_touches s _
  | connectFailed =>
    rw [connectFailed_objects]
    exact .nothing
  | @destroy h inline => exact absurd rfl (kind h inline)
  | @lose c => exact .lost c
  | @handleBroken c inline => exact handleBroken_touches s c inline
  | run =>
    rw [schedule_objects]
    exact .nothing

theorem Touches.maxSize (touches : Touches o o') : o'.maxSize = o.maxSize := by
  cases touches <;> rfl

theorem step_maxSize (inv : Invariant 0 s) (took : step s label = some t) :
    t.maxSize = s.maxSize := by
  by_cases kind : ∀ h inline, label ≠ .destroy h inline
  · exact (step_touches inv kind took).maxSize
  push Not at kind
  obtain ⟨h, inline, rfl⟩ := kind
  cases effect_of_step took
  exact congrArg Objects.maxSize (destroy_objects s h inline)

theorem reaches_invariant (run : Reaches maxSize allowed labels s) : Invariant 0 s :=
  run.invariant (initial_invariant maxSize) fun inv _ took => step_invariant inv took

theorem reaches_maxSize (run : Reaches maxSize allowed labels s) : s.maxSize = maxSize := by
  have kept : Invariant 0 s ∧ s.maxSize = maxSize :=
    run.invariant (P := fun s => Invariant 0 s ∧ s.maxSize = maxSize) ⟨initial_invariant maxSize, rfl⟩
      fun kept _ took =>
        ⟨step_invariant kept.1 took, (step_maxSize kept.1 took).trans kept.2⟩
  exact kept.2

/-- In every run the counter is the number of connections in their places and of connects
under way. It keeps to its limit, was never decremented at zero, and every connection
ever established is in one place or has given its slot back once. -/
theorem totalCount_counts (run : Reaches maxSize free labels s) :
    s.totalCount.toNat = s.conns.card + s.connecting.length ∧ s.totalCount ≤ maxSize ∧
      s.underflow = false ∧ s.connecting.Nodup ∧
      s.conns + s.released = Multiset.range s.nextConn := by
  have inv := reaches_invariant run
  have total := inv.account.total
  have whole := inv.account.whole
  rw [add_zero] at total whole
  refine ⟨total, ?_, inv.account.counted, ?_, whole⟩
  · rw [← reaches_maxSize run]
    exact inv.account.bound
  · exact (nodup_append.mp inv.queue.nodup).2.1

/-- One connection is checked out, breaks, and its handle is destroyed on another thread. -/
def breakCheckedOut : List Action :=
  [.acquire false, .connected 0, .resume 0, .handleBroken 0 false, .run, .destroy 0 false]

theorem totalCount_counts_broken : ∃ s, Reaches 1 free breakCheckedOut s ∧
    s.released = [0] ∧ s.totalCount.toNat = s.conns.card + s.connecting.length := by
  have run : Reaches 1 free breakCheckedOut _ := .of_exec rfl
  exact ⟨_, run, rfl, (totalCount_counts run).1⟩

end Nitrocoro.Pg.Pool
