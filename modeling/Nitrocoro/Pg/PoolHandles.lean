import Nitrocoro.Pg.PoolProofs

/-! The connections and the `PooledConnection` objects along the runs of a pool: who may still use
a connection, and that nobody else has it. -/
namespace Nitrocoro.Pg.Pool
open Finset Function Transition
variable {s t : State}

namespace Objects
variable {o p : Objects}

def Exists (o : Objects) (h : Nat) : Prop := h < o.nextHandle ∧ (o.handle h).destroyed = false

/-- Nothing comes back: objects keep their connection, and the dead stay dead. -/
structure Grows (o p : Objects) : Prop where
  nextConn : o.nextConn ≤ p.nextConn
  nextHandle : o.nextHandle ≤ p.nextHandle
  handle : ∀ h < o.nextHandle,
    (p.handle h).impl = (o.handle h).impl ∧ (p.handle h).destroyed = (o.handle h).destroyed
  alive : ∀ c < o.nextConn, (p.conn c).isAlive → (o.conn c).isAlive

theorem alive_of_update {conn : Nat → Conn} {new : Conn}
    (weaker : new.isAlive → (conn c).isAlive) (alive : (update conn c new d).isAlive) :
    (conn d).isAlive := by
  by_cases same : d = c
  · subst same
    rw [update_self] at alive
    exact weaker alive
  · rwa [update_of_ne same] at alive

theorem Grows.of_touches (touches : Touches o p) : Grows o p := by
  have dead : ∀ c, ({ o.conn c with broken := true } : Conn).isAlive → (o.conn c).isAlive := by
    simp [Conn.isAlive]
  cases touches with
  | nothing => exact ⟨Nat.le_refl _, Nat.le_refl _, fun _ _ => ⟨rfl, rfl⟩, fun _ _ => id⟩
  | established =>
    refine ⟨Nat.le_succ _, Nat.le_refl _, fun _ _ => ⟨rfl, rfl⟩, fun c below => ?_⟩
    simp only [update_of_ne (Nat.ne_of_lt below)]
    exact id
  | handed c known =>
    refine ⟨Nat.le_refl _, Nat.le_succ _, fun h below => ?_, fun d _ => alive_of_update id⟩
    simp only [update_of_ne (Nat.ne_of_lt below), and_self]
  | lost c =>
    exact ⟨Nat.le_refl _, Nat.le_refl _, fun _ _ => ⟨rfl, rfl⟩,
      fun d _ => alive_of_update (by simp [Conn.isAlive])⟩
  | broke c handler =>
    exact ⟨Nat.le_refl _, Nat.le_refl _, fun _ _ => ⟨rfl, rfl⟩, fun d _ => alive_of_update (dead c)⟩
  | detached c h handler =>
    refine ⟨Nat.le_refl _, Nat.le_refl _, fun h' _ => ?_, fun d _ => alive_of_update (dead c)⟩
    by_cases same : h' = h
    · subst same
      simp only [update_self, and_self]
    · simp only [update_of_ne same, and_self]

/-- The handler of a connection is that of an object that has it, and an object that was detached
before its destructor ran has a broken connection. -/
structure Bound (o : Objects) : Prop where
  known : ∀ h < o.nextHandle, (o.handle h).impl < o.nextConn
  handler : ∀ c h, (o.conn c).brokenHandler = some h → h < o.nextHandle ∧ (o.handle h).impl = c
  detached : ∀ h, o.Exists h → (o.handle h).detached → (o.conn (o.handle h).impl).broken

theorem Bound.established (bound : Bound o) :
    Bound { o with conn := update o.conn o.nextConn {}, nextConn := o.nextConn + 1 } := by
  refine ⟨fun h below => Nat.lt_succ_of_lt (bound.known h below), fun c h handler => ?_,
    fun h there detached => ?_⟩
  · by_cases same : c = o.nextConn
    · subst same
      simp only [update_self] at handler
      cases handler
    · simp only [update_of_ne same] at handler
      exact bound.handler c h handler
  · simp only [update_of_ne (Nat.ne_of_lt (bound.known h there.1))]
    exact bound.detached h there detached

theorem Bound.handed (bound : Bound o) (known : c < o.nextConn) : Bound { o with
      conn := update o.conn c { o.conn c with brokenHandler := some o.nextHandle }
      handle := update o.handle o.nextHandle { impl := c }
      nextHandle := o.nextHandle + 1 } := by
  refine ⟨fun h below => ?_, fun d h handler => ?_, fun h there detached => ?_⟩
  · rcases Nat.lt_succ_iff_lt_or_eq.mp below with old | rfl
    · simp only [update_of_ne (Nat.ne_of_lt old)]
      exact bound.known h old
    · simpa only [update_self] using known
  · by_cases same : d = c
    · subst same
      simp only [update_self, Option.some.injEq] at handler
      subst handler
      exact ⟨Nat.lt_succ_self _, by simp only [update_self]⟩
    · simp only [update_of_ne same] at handler
      obtain ⟨old, impl⟩ := bound.handler d h handler
      refine ⟨Nat.lt_succ_of_lt old, ?_⟩
      simpa only [update_of_ne (Nat.ne_of_lt old)] using impl
  · rcases Nat.lt_succ_iff_lt_or_eq.mp there.1 with old | rfl
    · have there : o.Exists h :=
        ⟨old, by simpa only [update_of_ne (Nat.ne_of_lt old)] using there.2⟩
      simp only [update_of_ne (Nat.ne_of_lt old)] at detached ⊢
      have broken := bound.detached h there detached
      by_cases same : (o.handle h).impl = c
      · rw [same, update_self]
        exact same ▸ broken
      · rwa [update_of_ne same]
    · simp only [update_self] at detached
      cases detached

theorem Bound.setConn (bound : Bound o) {new : Conn}
    (handler : new.brokenHandler = (o.conn c).brokenHandler)
    (broken : (o.conn c).broken → new.broken) : Bound { o with conn := update o.conn c new } := by
  refine ⟨bound.known, fun d h installed => ?_, fun h there detached => ?_⟩
  · by_cases same : d = c
    · subst same
      simp only [update_self] at installed
      exact bound.handler d h (handler.symm.trans installed)
    · simp only [update_of_ne same] at installed
      exact bound.handler d h installed
  · have before := bound.detached h there detached
    by_cases same : (o.handle h).impl = c
    · simp only [same, update_self]
      exact broken (same ▸ before)
    · simpa only [update_of_ne same] using before

theorem Bound.setHandle (bound : Bound o) {new : Handle} (impl : new.impl = (o.handle h).impl)
    (gone : new.destroyed = false → (o.conn (o.handle h).impl).broken) :
    Bound { o with handle := update o.handle h new } := by
  have same : ∀ h', (update o.handle h new h').impl = (o.handle h').impl := by
    intro h'
    by_cases eq : h' = h
    · subst eq
      rw [update_self, impl]
    · rw [update_of_ne eq]
  refine ⟨fun h' below => ?_, fun c h' installed => ?_, fun h' there detached => ?_⟩
  · rw [same h']
    exact bound.known h' below
  · rw [same h']
    exact bound.handler c h' installed
  rw [same h']
  by_cases eq : h' = h
  · subst eq
    have kept := there.2
    simp only [update_self] at kept
    exact gone kept
  · have there : o.Exists h' := ⟨there.1, by simpa only [update_of_ne eq] using there.2⟩
    simp only [update_of_ne eq] at detached
    exact bound.detached h' there detached

theorem Bound.of_touches (bound : Bound o) (touches : Touches o p) : Bound p := by
  cases touches with
  | nothing => exact bound
  | established => exact bound.established
  | handed c known => exact bound.handed known
  | lost c => exact bound.setConn rfl id
  | broke c handler => exact bound.setConn rfl fun _ => rfl
  | detached c h handler =>
    have broke : Bound { o with conn := update o.conn c { o.conn c with broken := true } } :=
      bound.setConn rfl fun _ => rfl
    refine broke.setHandle rfl fun _ => ?_
    simp only [(bound.handler c h handler).2, update_self]

end Objects

theorem destroy_bound (bound : s.objects.Bound) (h : Nat) (inline : Bool) :
    (destroy s h inline).objects.Bound := by
  rw [destroy_objects]
  exact bound.setHandle rfl nofun

theorem initial_bound (maxSize : UInt64) : (State.objects { maxSize := maxSize }).Bound :=
  ⟨nofun, nofun, fun _ there => nomatch there.1⟩

/-- A connection that is alive is held by one object at most, and then by nobody else. -/
theorem held_once (inv : Invariant 0 s) (bound : s.objects.Bound) (there : s.objects.Exists h)
    (alive : (s.conn (s.handle h).impl).isAlive) : (s.handle h).impl ∉ s.idle ∧
      (∀ w < s.nextWaiter, (s.waiter w).done = false →
        (s.waiter w).promise ≠ .value (s.handle h).impl) ∧
      ∀ h', s.objects.Exists h' → (s.handle h').impl = (s.handle h).impl → h' = h := by
  have attached : ∀ h', s.objects.Exists h' → (s.handle h').impl = (s.handle h).impl →
      (s.handle h').held = {(s.handle h).impl} := by
    intro h' there' same
    cases detached : (s.handle h').detached with
    | false => rw [Handle.held, detached, same]; rfl
    | true =>
      have broken : (s.conn (s.handle h').impl).broken := bound.detached h' there' detached
      rw [same] at broken
      simp [Conn.isAlive, broken] at alive
  have held : (s.handle h).impl ∈ ∑ h' ∈ range s.nextHandle, (s.handle h').held := by
    refine Multiset.mem_sum.mpr ⟨h, mem_range.mpr there.1, ?_⟩
    rw [attached h there rfl]
    exact Multiset.mem_singleton_self _
  have once : s.conns.Nodup := by
    have whole := inv.account.whole
    rw [add_zero] at whole
    have distinct := Multiset.nodup_range s.nextConn
    rw [← whole] at distinct
    exact (Multiset.nodup_add.mp distinct).1
  obtain ⟨once, -, -⟩ := Multiset.nodup_add.mp once
  obtain ⟨-, objects, apart⟩ := Multiset.nodup_add.mp once
  refine ⟨fun idle => ?_, fun w known waiting value => ?_, fun h' there' same => ?_⟩
  · exact Multiset.disjoint_left.mp apart (Multiset.mem_add.mpr (.inl idle)) held
  · exact Multiset.disjoint_left.mp apart
      (Multiset.mem_add.mpr (.inr (carried_mem known waiting value))) held
  by_contra other
  have split := add_sum_erase (range s.nextHandle) (fun h => (s.handle h).held)
    (mem_range.mpr there.1)
  rw [← split, attached h there rfl] at objects
  obtain ⟨-, -, apart⟩ := Multiset.nodup_add.mp objects
  apply Multiset.disjoint_left.mp apart (Multiset.mem_singleton_self _)
  refine Multiset.mem_sum.mpr ⟨h', mem_erase.mpr ⟨other, mem_range.mpr there'.1⟩, ?_⟩
  rw [attached h' there' same]
  exact Multiset.mem_singleton_self _

theorem step_bound (inv : Invariant 0 s) (bound : s.objects.Bound) (took : step s label = some t) :
    t.objects.Bound := by
  cases label with
  | destroy h inline =>
    obtain ⟨-, rfl⟩ := of_ite took
    exact destroy_bound bound h inline
  | _ => exact bound.of_touches (step_touches inv (by rintro _ _ ⟨⟩) took)

/-- In every run, a connection that is alive and that a `PooledConnection` has is neither idle nor
on its way to a waiter, and no other `PooledConnection` has it. -/
theorem connection_exclusive (run : Reaches maxSize free labels s)
    (there : s.objects.Exists h) (alive : (s.conn (s.handle h).impl).isAlive) :
    (s.handle h).impl ∉ s.idle ∧
      (∀ w < s.nextWaiter, (s.waiter w).done = false →
        (s.waiter w).promise ≠ .value (s.handle h).impl) ∧
      ∀ h', s.objects.Exists h' → (s.handle h').impl = (s.handle h).impl → h' = h := by
  have both := run.invariant (P := fun s => Invariant 0 s ∧ s.objects.Bound)
    ⟨initial_invariant maxSize, initial_bound maxSize⟩
    fun holds _ took => ⟨step_invariant holds.1 took, step_bound holds.1 holds.2 took⟩
  exact held_once both.1 both.2 there alive

/-- A connection goes from one borrower to the next. -/
def borrowTwice : List Action :=
  [.acquire false, .connected 0, .resume 0, .destroy 0 true, .acquire false]

theorem connection_exclusive_twice : ∃ s, Reaches 1 free borrowTwice s ∧
    (s.handle 1).impl = 0 ∧ 0 ∉ s.idle := by
  have ends : ∃ s, exec step { maxSize := 1 } borrowTwice = some s ∧
      1 < s.nextHandle ∧ (s.handle 1).destroyed = false ∧ (s.handle 1).impl = 0 ∧
      (s.conn 0).isAlive := exec_any (by decide)
  obtain ⟨s, done, below, kept, impl, alive⟩ := ends
  have alone := connection_exclusive (.of_exec done) ⟨below, kept⟩ (by rw [impl]; exact alive)
  rw [impl] at alone
  exact ⟨s, .of_exec done, impl, alone.1⟩

end Nitrocoro.Pg.Pool
