import Nitrocoro.Pg.PoolHandles
import Nitrocoro.Pg.Transaction

/-! Whoever lets go of a connection leaves no open transaction on it, unless the connection is dead.
While the server is inside a transaction, the connection is with a transaction object that is not
finished or with the task that ends it. -/
namespace Nitrocoro.Pg.Transaction
open Function Option Transition
open State (destroy isAlive has)
variable {s u : State} {link : Link} {inline : Bool}

def State.Known (s : State) : Session → Prop
  | .pooled c => c < s.pool.nextConn
  | .plain k => k < s.nextPlain

/-- A transaction on the connection is under way, or about to be ended. -/
def State.Busy (s : State) (link : Link) : Prop :=
  (∃ sql, s.owner link = .spawned sql) ∨
    ∃ t tx, s.owner link = .transaction t ∧ s.tx t = some tx ∧ tx.conn = some link ∧ tx.done = false

/-- The server is outside a transaction, or the connection is of no use. -/
def State.Settled (s : State) (session : Session) : Prop :=
  s.inTransaction session = false ∨ s.isAlive session = false

structure Sound (s : State) : Prop where
  pool : Pool.Invariant 0 s.pool
  bound : s.pool.objects.Bound
  owned : ∀ t tx link, s.tx t = some tx → tx.conn = some link →
    s.has link ∧ s.owner link = .transaction t
  held : ∀ t tx, s.tx t = some tx → tx.conn = none → tx.done
  fresh : ∀ t ≥ s.nextTx, s.tx t = none
  busy : ∀ session, s.Known session → ¬ s.Settled session →
    ∃ link, s.has link ∧ s.session link = session ∧ s.Busy link

theorem has_pooled : s.has (.pooled h) ↔ s.pool.objects.Exists h := by
  simp [has, Pool.Objects.Exists, Pool.State.objects]

theorem has_plain : s.has (.plain k) ↔ k < s.nextPlain ∧ (s.plain k).destroyed = false := by
  simp [has]

section Destroy

theorem destroy_handle (h' : Nat) : (Pool.destroy s.pool h inline).handle h' =
    if h' = h then { s.pool.handle h with detached := true, destroyed := true }
    else s.pool.handle h' := by
  have objects := congrArg Pool.Objects.handle (Pool.destroy_objects s.pool h inline)
  exact (congrFun objects h').trans (update_apply _ _ _ _)

theorem has_destroy (other : Link) :
    (s.destroy link inline).has other ↔ s.has other ∧ other ≠ link := by
  cases link with
  | pooled h =>
    cases other with
    | plain k =>
      rw [has_plain, has_plain]
      simp [destroy]
    | pooled h' =>
      rw [has_pooled, has_pooled, destroy, Pool.destroy_objects]
      simp only [Pool.Objects.Exists, Pool.State.objects]
      by_cases same : h' = h
      · simp [same]
      · simp [same]
  | plain k =>
    cases other with
    | pooled h =>
      rw [has_pooled, has_pooled]
      simp [destroy]
    | plain k' =>
      rw [has_plain, has_plain]
      by_cases same : k' = k
      · simp [destroy, same]
      · simp [destroy, same]

theorem session_destroy (other : Link) : (s.destroy link inline).session other = s.session other := by
  cases link with
  | plain k => rfl
  | pooled h =>
    cases other with
    | plain k => rfl
    | pooled h' =>
      simp only [destroy, State.session, destroy_handle]
      split
      · rename_i same
        rw [same]
      · rfl

theorem isAlive_destroy (session : Session) :
    (s.destroy link inline).isAlive session = s.isAlive session := by
  cases link with
  | pooled h =>
    cases session with
    | plain k => rfl
    | pooled c =>
      have conn : (Pool.destroy s.pool h inline).conn = s.pool.conn :=
        congrArg Pool.Objects.conn (Pool.destroy_objects s.pool h inline)
      simp only [destroy, isAlive, conn]
  | plain k =>
    cases session with
    | pooled c => rfl
    | plain k' =>
      by_cases same : k' = k
      · simp [destroy, isAlive, same]
      · simp [destroy, isAlive, same]

theorem known_destroy (session : Session) :
    (s.destroy link inline).Known session ↔ s.Known session := by
  cases link with
  | plain k => cases session <;> exact Iff.rfl
  | pooled h =>
    cases session with
    | plain k => exact Iff.rfl
    | pooled c =>
      have next : (Pool.destroy s.pool h inline).nextConn = s.pool.nextConn :=
        congrArg Pool.Objects.nextConn (Pool.destroy_objects s.pool h inline)
      simp only [destroy, State.Known, next]

@[simp] theorem tx_destroy : (s.destroy link inline).tx = s.tx := by cases link <;> rfl
@[simp] theorem owner_destroy : (s.destroy link inline).owner = s.owner := by cases link <;> rfl
@[simp] theorem nextTx_destroy : (s.destroy link inline).nextTx = s.nextTx := by cases link <;> rfl
@[simp] theorem inTransaction_destroy : (s.destroy link inline).inTransaction = s.inTransaction := by
  cases link <;> rfl

theorem busy_destroy (other : Link) : (s.destroy link inline).Busy other ↔ s.Busy other := by
  simp only [State.Busy, owner_destroy, tx_destroy]

theorem settled_destroy (session : Session) :
    (s.destroy link inline).Settled session ↔ s.Settled session := by
  rw [State.Settled, State.Settled, inTransaction_destroy, isAlive_destroy]

end Destroy

theorem Sound.destroy (sound : Sound s) (there : s.has link)
    (unowned : ∀ t tx, s.tx t = some tx → tx.conn ≠ some link)
    (settled : s.Busy link → s.Settled (s.session link)) (inline : Bool) :
    Sound (s.destroy link inline) where
  pool := by
    cases link with
    | plain k => exact sound.pool
    | pooled h => exact Pool.destroy_invariant sound.pool (has_pooled.mp there).1 inline
  bound := by
    cases link with
    | plain k => exact sound.bound
    | pooled h => exact Pool.destroy_bound sound.bound h inline
  owned t tx other present conn := by
    rw [tx_destroy] at present
    obtain ⟨has, owner⟩ := sound.owned t tx other present conn
    rw [has_destroy, owner_destroy]
    refine ⟨⟨has, ?_⟩, owner⟩
    rintro rfl
    exact unowned t tx present conn
  held t tx present := by
    rw [tx_destroy] at present
    exact sound.held t tx present
  fresh t later := by
    rw [nextTx_destroy] at later
    rw [tx_destroy]
    exact sound.fresh t later
  busy session known unsettled := by
    rw [known_destroy] at known
    rw [settled_destroy] at unsettled
    obtain ⟨other, has, same, busy⟩ := sound.busy session known unsettled
    refine ⟨other, (has_destroy other).mpr ⟨has, ?_⟩, (session_destroy other).trans same,
      (busy_destroy other).mpr busy⟩
    rintro rfl
    exact unsettled (same ▸ settled busy)

section Hear
variable {reply : Reply}

@[simp] theorem tx_hear : (s.hear link reply).tx = s.tx := by cases reply <;> rfl
@[simp] theorem owner_hear : (s.hear link reply).owner = s.owner := by cases reply <;> rfl
@[simp] theorem has_hear : (s.hear link reply).has = s.has := by cases reply <;> rfl
@[simp] theorem session_hear : (s.hear link reply).session = s.session := by cases reply <;> rfl

theorem busy_hear (other : Link) : (s.hear link reply).Busy other ↔ s.Busy other := by
  simp only [State.Busy, owner_hear, tx_hear]

end Hear

/-- The session of `link` hears a statement; it can only be opened by a transaction under way. -/
theorem Sound.hear (sound : Sound s) (there : s.has link)
    (opens : ∀ error, reply = .answered error true →
      s.inTransaction (s.session link) ∨ s.Busy link) : Sound (s.hear link reply) := by
  cases reply with
  | broken | unsent => exact sound
  | answered error inTransaction =>
    refine ⟨sound.pool, sound.bound, sound.owned, sound.held, sound.fresh, ?_⟩
    intro session known unsettled
    by_cases same : session = s.session link
    · subst same
      have opened : inTransaction = true := by
        by_contra closed
        exact unsettled (.inl (by simpa [State.hear] using closed))
      subst opened
      rcases opens error rfl with already | busy
      · refine sound.busy _ known fun settled => unsettled (settled.imp ?_ id)
        intro closed
        rw [already] at closed
        cases closed
      · exact ⟨link, there, rfl, busy⟩
    · refine sound.busy session known fun settled => unsettled (settled.imp ?_ id)
      intro closed
      simpa [State.hear, same] using closed

theorem Sound.setOwner (sound : Sound s)
    (unowned : ∀ t tx, s.tx t = some tx → tx.conn ≠ some link) (idle : ¬ s.Busy link)
    (owner : Owner) : Sound (s.setOwner link owner) := by
  refine ⟨sound.pool, sound.bound, ?_, sound.held, sound.fresh, ?_⟩
  · intro t tx other present conn
    obtain ⟨has, owns⟩ := sound.owned t tx other present conn
    have ne : other ≠ link := by
      rintro rfl
      exact unowned t tx present conn
    refine ⟨has, ?_⟩
    simpa only [State.setOwner, update_of_ne ne] using owns
  · intro session known unsettled
    obtain ⟨other, has, same, busy⟩ := sound.busy session known unsettled
    have ne : other ≠ link := by
      rintro rfl
      exact idle busy
    refine ⟨other, has, same, ?_⟩
    simpa only [State.Busy, State.setOwner, update_of_ne ne] using busy

theorem Sound.tx_lt (sound : Sound s) (present : s.tx t = some tx) : t < s.nextTx := by
  by_contra later
  rw [sound.fresh t (Nat.le_of_not_lt later)] at present
  cases present

theorem Sound.owner_unique (sound : Sound s) (present : s.tx t = some tx)
    (conn : tx.conn = some link) (present' : s.tx t' = some tx') (conn' : tx'.conn = some link) :
    t' = t := by
  have owner := (sound.owned t tx link present conn).2
  have owner' := (sound.owned t' tx' link present' conn').2
  rw [owner] at owner'
  exact (Owner.transaction.inj owner').symm

/-- A transaction that has the connection is the one that may be under way on it. -/
theorem Sound.busy_iff (sound : Sound s) (present : s.tx t = some tx) (conn : tx.conn = some link) :
    s.Busy link ↔ tx.done = false := by
  have owner := (sound.owned t tx link present conn).2
  constructor
  · rintro (⟨sql, spawned⟩ | ⟨t', tx', owner', present', -, unfinished⟩)
    · rw [owner] at spawned
      cases spawned
    rw [owner] at owner'
    cases owner'
    rw [present] at present'
    cases present'
    exact unfinished
  · exact fun unfinished => .inr ⟨t, tx, owner, present, conn, unfinished⟩

theorem setTx_cases (present : (s.setTx t new).tx t' = some tx') :
    t' = t ∧ new = some tx' ∨ t' ≠ t ∧ s.tx t' = some tx' := by
  by_cases same : t' = t
  · subst same
    simp only [State.setTx, update_self] at present
    exact .inl ⟨rfl, present⟩
  · simp only [State.setTx, update_of_ne same] at present
    exact .inr ⟨same, present⟩

/-- A transaction changes or goes; if it was under way and is no longer, its session is settled. -/
theorem Sound.setTx (sound : Sound s) (present : s.tx t = some tx) (new : Option PgTransaction)
    (conns : ∀ tx', new = some tx' → tx'.conn = tx.conn ∧ (tx'.conn = none → tx'.done))
    (ends : ∀ link, tx.conn = some link → tx.done = false →
      (∃ tx', new = some tx' ∧ tx'.done = false) ∨ s.Settled (s.session link)) :
    Sound (s.setTx t new) := by
  refine ⟨sound.pool, sound.bound, ?_, ?_, ?_, ?_⟩
  · intro t' tx' link present' conn
    rcases setTx_cases present' with ⟨rfl, changed⟩ | ⟨-, present'⟩
    · rw [(conns tx' changed).1] at conn
      exact sound.owned t' tx link present conn
    · exact sound.owned t' tx' link present' conn
  · intro t' tx' present' none
    rcases setTx_cases present' with ⟨rfl, changed⟩ | ⟨-, present'⟩
    · exact (conns tx' changed).2 none
    · exact sound.held t' tx' present' none
  · intro t' later
    have ne : t' ≠ t := Nat.ne_of_gt (Nat.lt_of_lt_of_le (sound.tx_lt present) later)
    simp only [State.setTx, update_of_ne ne]
    exact sound.fresh t' later
  intro session known unsettled
  obtain ⟨link, has, rfl, busy⟩ := sound.busy session known unsettled
  refine ⟨link, has, rfl, ?_⟩
  rcases busy with spawned | ⟨t', tx', owner, present', conn, unfinished⟩
  · exact .inl spawned
  by_cases same : t' = t
  · subst same
    rw [present] at present'
    cases present'
    rcases ends link conn unfinished with ⟨tx'', rfl, unfinished'⟩ | settled
    · refine .inr ⟨t', tx'', owner, update_self _ _ _, ?_, unfinished'⟩
      rw [(conns tx'' rfl).1, conn]
    · exact absurd settled unsettled
  · exact .inr ⟨t', tx', owner, (update_of_ne same _ _).trans present', conn, unfinished⟩

/-- The connection moves on from the transaction: to the task that ends it, or to the caller when
its session is settled. -/
theorem Sound.handOver (sound : Sound s) (present : s.tx t = some tx) (conn : tx.conn = some link)
    (new : Option PgTransaction) (empty : ∀ tx', new = some tx' → tx'.conn = none ∧ tx'.done)
    (owner : Owner) (ends : (∃ sql, owner = .spawned sql) ∨ s.Settled (s.session link)) :
    Sound ((s.setTx t new).setOwner link owner) := by
  refine ⟨sound.pool, sound.bound, ?_, ?_, ?_, ?_⟩
  · intro t' tx' other present' conn'
    rcases setTx_cases present' with ⟨rfl, changed⟩ | ⟨same, before⟩
    · rw [(empty tx' changed).1] at conn'
      cases conn'
    obtain ⟨has, owns⟩ := sound.owned t' tx' other before conn'
    have ne : other ≠ link := by
      rintro rfl
      exact same (sound.owner_unique present conn before conn')
    refine ⟨has, ?_⟩
    simpa only [State.setOwner, State.setTx, update_of_ne ne] using owns
  · intro t' tx' present' none
    rcases setTx_cases present' with ⟨rfl, changed⟩ | ⟨-, present'⟩
    · exact (empty tx' changed).2
    · exact sound.held t' tx' present' none
  · intro t' later
    have ne : t' ≠ t := Nat.ne_of_gt (Nat.lt_of_lt_of_le (sound.tx_lt present) later)
    simp only [State.setOwner, State.setTx, update_of_ne ne]
    exact sound.fresh t' later
  intro session known unsettled
  obtain ⟨other, has, rfl, busy⟩ := sound.busy session known unsettled
  refine ⟨other, has, rfl, ?_⟩
  by_cases same : other = link
  · subst same
    rcases ends with ⟨sql, rfl⟩ | settled
    · exact .inl ⟨sql, update_self _ _ _⟩
    · exact absurd settled unsettled
  rcases busy with ⟨sql, spawned⟩ | ⟨t', tx', owns, present', conn', unfinished⟩
  · exact .inl ⟨sql, (update_of_ne same _ _).trans spawned⟩
  have ne : t' ≠ t := by
    rintro rfl
    rw [present] at present'
    cases present'
    rw [conn] at conn'
    exact same (Option.some.inj conn').symm
  exact .inr ⟨t', tx', (update_of_ne same _ _).trans owns,
    (update_of_ne ne _ _).trans present', conn', unfinished⟩

theorem not_busy_of_owner (owner : s.owner link = .caller ∨ s.owner link = .beginning) :
    ¬ s.Busy link := by
  rintro (⟨sql, owns⟩ | ⟨t, -, owns, -⟩)
  · rw [owns] at owner
    simp at owner
  · rw [owns] at owner
    simp at owner

section
variable (sound : Sound s)
include sound

/-- `begin` constructs a transaction for a connection that no other one has. -/
theorem Sound.construct (there : s.has link) (owner : s.owner link = .beginning) :
    Sound { (s.setTx s.nextTx (some { conn := some link })).setOwner link (.transaction s.nextTx) with
      nextTx := s.nextTx + 1 } := by
  have free : ∀ t tx, s.tx t = some tx → t ≠ s.nextTx := fun t tx present =>
    Nat.ne_of_lt (sound.tx_lt present)
  refine ⟨sound.pool, sound.bound, ?_, ?_, ?_, ?_⟩
  · intro t' tx' other present' conn'
    rcases setTx_cases present' with ⟨rfl, ⟨⟩⟩ | ⟨-, present'⟩
    · cases conn'
      exact ⟨there, update_self _ _ _⟩
    obtain ⟨has, owns⟩ := sound.owned t' tx' other present' conn'
    have ne : other ≠ link := by
      rintro rfl
      rw [owner] at owns
      cases owns
    refine ⟨has, ?_⟩
    simpa only [State.setOwner, State.setTx, update_of_ne ne] using owns
  · intro t' tx' present' none
    rcases setTx_cases present' with ⟨rfl, ⟨⟩⟩ | ⟨-, present'⟩
    · cases none
    · exact sound.held t' tx' present' none
  · intro t' later
    have ne : t' ≠ s.nextTx := Nat.ne_of_gt later
    simp only [State.setOwner, State.setTx, update_of_ne ne]
    exact sound.fresh t' (Nat.le_of_succ_le later)
  intro session known unsettled
  obtain ⟨other, has, rfl, busy⟩ := sound.busy session known unsettled
  refine ⟨other, has, rfl, ?_⟩
  have ne : other ≠ link := by
    rintro rfl
    exact not_busy_of_owner (.inr owner) busy
  rcases busy with ⟨sql, spawned⟩ | ⟨t', tx', owns, present', conn', unfinished⟩
  · exact .inl ⟨sql, (update_of_ne ne _ _).trans spawned⟩
  · exact .inr ⟨t', tx', (update_of_ne ne _ _).trans owns,
      (update_of_ne (free t' tx' present') _ _).trans present', conn', unfinished⟩

theorem Sound.known (there : s.has link) : s.Known (s.session link) := by
  cases link with
  | pooled h => exact sound.bound.known h (has_pooled.mp there).1
  | plain k => exact (has_plain.mp there).1

theorem Sound.link_unique (there : s.has link) (there' : s.has link')
    (same : s.session link' = s.session link) (alive : s.isAlive (s.session link)) :
    link' = link := by
  cases link with
  | plain k =>
    cases link' with
    | plain k' => exact congrArg _ (Session.plain.inj same)
    | pooled h => cases same
  | pooled h =>
    cases link' with
    | plain k => cases same
    | pooled h' =>
      obtain ⟨-, -, unique⟩ :=
        Pool.held_once sound.pool sound.bound (has_pooled.mp there) alive
      exact congrArg _ (unique h' (has_pooled.mp there') (Session.pooled.inj same))

theorem Sound.settled (there : s.has link) (idle : ¬ s.Busy link) : s.Settled (s.session link) := by
  by_contra unsettled
  obtain ⟨link', there', same, busy⟩ := sound.busy _ (sound.known there) unsettled
  have alive : s.isAlive (s.session link) := by
    by_contra dead
    exact unsettled (.inr (by simpa using dead))
  rw [sound.link_unique there there' same alive] at busy
  exact idle busy

theorem Sound.settled_of_done (finished : ∃ tx, s.tx t = some tx ∧ tx.done ∧ tx.conn = some link) :
    s.Settled (s.session link) := by
  obtain ⟨tx, present, done, conn⟩ := finished
  apply sound.settled (sound.owned t tx link present conn).1
  rw [sound.busy_iff present conn, done]
  exact nofun

theorem Sound.unowned (owner : ∀ t, s.owner link ≠ .transaction t) :
    ∀ t tx, s.tx t = some tx → tx.conn ≠ some link :=
  fun t tx present conn => owner t (sound.owned t tx link present conn).2

theorem Sound.withPool (kind : ∀ h inline, action ≠ .destroy h inline)
    (took : Pool.step s.pool action = some next) : Sound (s.withPool next) := by
  have touches := Pool.step_touches sound.pool kind took
  have grows := Pool.Objects.Grows.of_touches touches
  have keeps : ∀ link, s.has link →
      (s.withPool next).has link ∧ (s.withPool next).session link = s.session link := by
    intro link there
    cases link with
    | plain k => exact ⟨there, rfl⟩
    | pooled h =>
      obtain ⟨below, alive⟩ := has_pooled.mp there
      obtain ⟨impl, destroyed⟩ := grows.handle h below
      exact ⟨has_pooled.mpr ⟨Nat.lt_of_lt_of_le below grows.nextHandle, destroyed.trans alive⟩,
        congrArg Session.pooled impl⟩
  refine ⟨Pool.step_invariant sound.pool took, sound.bound.of_touches touches, ?_, sound.held,
    sound.fresh, ?_⟩
  · intro t tx link present conn
    obtain ⟨has, owner⟩ := sound.owned t tx link present conn
    exact ⟨(keeps link has).1, owner⟩
  intro session known unsettled
  have before : s.Known session ∧ ¬ s.Settled session := by
    cases session with
    | plain k => exact ⟨known, unsettled⟩
    | pooled c =>
      have old : c < s.pool.nextConn := by
        by_contra new
        exact unsettled (.inl (by simp [State.withPool, new]))
      refine ⟨old, fun settled => unsettled ?_⟩
      rcases settled with closed | dead
      · exact .inl (by simp [State.withPool, closed])
      · refine .inr (Bool.not_eq_true _ ▸ fun alive => ?_)
        rw [show s.isAlive (.pooled c) = true from grows.alive c old alive] at dead
        cases dead
  obtain ⟨link, has, same, busy⟩ := sound.busy session before.1 before.2
  exact ⟨link, (keeps link has).1, (keeps link has).2.trans same, busy⟩

/-- The plain connections change, but none is taken from its owner and none gets unsettled. -/
theorem Sound.replain {plain : Nat → Plain} {nextPlain : Nat} {inTransaction : Session → Bool}
    (keeps : ∀ link, s.has link → has { s with plain, nextPlain, inTransaction } link)
    (before : ∀ session, State.Known { s with plain, nextPlain, inTransaction } session →
      ¬ State.Settled { s with plain, nextPlain, inTransaction } session →
        s.Known session ∧ ¬ s.Settled session) :
    Sound { s with plain, nextPlain, inTransaction } := by
  refine ⟨sound.pool, sound.bound, ?_, sound.held, sound.fresh, ?_⟩
  · intro t tx link present conn
    obtain ⟨has, owner⟩ := sound.owned t tx link present conn
    exact ⟨keeps link has, owner⟩
  intro session known unsettled
  obtain ⟨known, unsettled⟩ := before session known unsettled
  obtain ⟨link, has, same, busy⟩ := sound.busy session known unsettled
  refine ⟨link, keeps link has, ?_, busy⟩
  rw [← same]
  cases link <;> rfl

theorem Sound.connect : Sound s.connect := by
  have keeps : ∀ link, s.has link → s.connect.has link := by
    intro link there
    cases link with
    | pooled h => exact there
    | plain k =>
      obtain ⟨below, kept⟩ := has_plain.mp there
      refine has_plain.mpr ⟨Nat.lt_succ_of_lt below, ?_⟩
      simpa only [State.connect, update_of_ne (Nat.ne_of_lt below)] using kept
  apply sound.replain keeps
  intro session known unsettled
  have old : session ≠ .plain s.nextPlain := by
    rintro rfl
    exact unsettled (.inl (update_self _ _ _))
  have status : s.connect.inTransaction session = s.inTransaction session :=
    update_of_ne old _ _
  have before : s.Known session ∧ s.connect.isAlive session = s.isAlive session := by
    cases session with
    | pooled c => exact ⟨known, rfl⟩
    | plain k =>
      have ne : k ≠ s.nextPlain := fun eq => old (congrArg _ eq)
      refine ⟨Nat.lt_of_le_of_ne (Nat.le_of_lt_succ known) ne, ?_⟩
      simp only [isAlive, State.connect, update_of_ne ne]
  refine ⟨before.1, fun settled => unsettled ?_⟩
  exact settled.imp status.trans before.2.trans

theorem Sound.lose (k : Nat) :
    Sound { s with plain := update s.plain k { s.plain k with broken := true } } := by
  have keeps : ∀ link, s.has link → has
      { s with plain := update s.plain k { s.plain k with broken := true } } link := by
    intro link there
    cases link with
    | pooled h => exact there
    | plain k' =>
      obtain ⟨below, kept⟩ := has_plain.mp there
      refine has_plain.mpr ⟨below, ?_⟩
      by_cases same : k' = k
      · subst same
        simpa only [update_self] using kept
      · simpa only [update_of_ne same] using kept
  apply sound.replain keeps
  intro session known unsettled
  have before : ¬ s.Settled session := by
    refine fun settled => unsettled (settled.imp id ?_)
    cases session with
    | pooled c => exact id
    | plain k' =>
      intro dead
      by_cases same : k' = k
      · subst same
        simp [isAlive]
      · simpa only [isAlive, update_of_ne same] using dead
  exact ⟨known, before⟩

theorem Sound.statement (present : s.tx t = some tx) (sent : s.statement tx reply = some u)
    (opens : ∀ error, reply = .answered error true → tx.done = false) :
    ∃ link, tx.conn = some link ∧ s.possible link reply ∧ u = s.hear link reply ∧ Sound u := by
  simp only [State.statement] at sent
  cases conn : tx.conn with
  | none =>
    rw [conn] at sent
    cases sent
  | some link =>
    simp only [conn] at sent
    obtain ⟨possible, rfl⟩ := of_ite sent
    refine ⟨link, rfl, possible, rfl, sound.hear (sound.owned t tx link present conn).1 ?_⟩
    exact fun error answer => .inr ((sound.busy_iff present conn).mpr (opens error answer))

end

theorem result_ok (ok : Reply.result reply = .ok ()) :
    ∃ inTransaction, reply = .answered none inTransaction := by
  cases reply with
  | broken | unsent => cases ok
  | answered error inTransaction =>
    cases error with
    | none => exact ⟨inTransaction, rfl⟩
    | some error => cases ok

theorem complete_ok {tx tx' : PgTransaction} (unfinished : tx.done = false)
    (ok : tx.complete reply = .ok tx') :
    ∃ inTransaction, reply = .answered none inTransaction ∧ tx' = { tx with done := true } := by
  simp only [PgTransaction.complete, PgTransaction.execute, PgTransaction.query, unfinished] at ok
  cases result : reply.result with
  | error error =>
    rw [result] at ok
    cases ok
  | ok _ =>
    obtain ⟨inTransaction, rfl⟩ := result_ok result
    cases ok
    exact ⟨inTransaction, rfl, rfl⟩

theorem Sound.complete (sound : Sound s) (present : s.tx t = some tx)
    (closes : ∀ error inTransaction, reply = .answered error inTransaction → inTransaction = false)
    (done : s.complete t tx reply (tx.complete reply) = some u) : Sound u := by
  simp only [State.complete] at done
  by_cases finished : tx.done
  · rw [if_pos finished] at done
    cases done
    exact sound
  rw [if_neg finished] at done
  have unfinished : tx.done = false := by simpa using finished
  obtain ⟨-, done⟩ := ite_none_left_eq_some.mp done
  obtain ⟨v, sent, done⟩ := map_eq_some_iff.mp done
  obtain ⟨link, conn, -, heard, sound'⟩ := sound.statement present sent fun _ _ => unfinished
  cases result : tx.complete reply with
  | error error =>
    rw [result] at done
    cases done
    exact sound'
  | ok tx' =>
    rw [result] at done
    cases done
    obtain ⟨inTransaction, rfl, rfl⟩ := complete_ok unfinished result
    have closed := closes _ _ rfl
    subst closed
    subst heard
    refine sound'.setTx present _ ?_ ?_
    · rintro tx' ⟨⟩
      exact ⟨rfl, fun _ => rfl⟩
    · rintro link' conn' -
      rw [conn] at conn'
      cases conn'
      exact .inr (.inl (update_self _ _ _))

theorem step_pool (took : step s (.pool action) = some u) :
    (∀ h inline, action ≠ .destroy h inline) ∧
      ∃ next, Pool.step s.pool action = some next ∧ u = s.withPool next := by
  by_cases kind : ∀ h inline, action ≠ .destroy h inline
  · have own : step s (.pool action) = (Pool.step s.pool action).map s.withPool := by
      cases action with
      | destroy h inline => exact absurd rfl (kind h inline)
      | _ => rfl
    rw [own] at took
    obtain ⟨next, moved, same⟩ := map_eq_some_iff.mp took
    exact ⟨kind, next, moved, same.symm⟩
  · push Not at kind
    obtain ⟨h, inline, rfl⟩ := kind
    cases took

theorem ended (possible : s.possible link reply) (known : reply ≠ .unsent)
    (closes : ∀ error inTransaction, reply = .answered error inTransaction → inTransaction = false) :
    (s.hear link reply).Settled (s.session link) := by
  cases reply with
  | unsent => exact absurd rfl known
  | answered error inTransaction =>
    exact .inl ((update_self _ _ _).trans (closes error inTransaction rfl))
  | broken error =>
    have dead : s.isAlive (s.session link) = false := by simpa [State.possible] using possible
    exact .inr dead

theorem Sound.begun (sound : Sound s) (there : s.has link) (owner : s.owner link = .beginning)
    (obeys : Obeys s (.begun link reply inline)) : Sound (s.begun link reply inline) := by
  simp only [State.begun]
  cases result : reply.result with
  | ok _ =>
    obtain ⟨inTransaction, rfl⟩ := result_ok result
    have heard : Sound (State.hear _ link (.answered none inTransaction)) :=
      (sound.construct there owner).hear there fun _ _ => .inr (.inr ⟨s.nextTx, { conn := some link },
        update_self _ _ _, update_self _ _ _, rfl, rfl⟩)
    exact heard
  | error error =>
    have refused : Sound (s.hear link reply) := by
      apply sound.hear there
      rintro error' rfl
      cases error' with
      | none => cases result
      | some error' =>
        have same : true = s.inTransaction (s.session link) := obeys
        exact .inl same.symm
    refine refused.destroy (by rwa [has_hear]) (refused.unowned fun t owns => ?_) ?_ inline
    · rw [owner_hear, owner] at owns
      cases owns
    · rw [busy_hear]
      exact fun busy => absurd busy (not_busy_of_owner (.inr owner))

theorem Sound.spawned (sound : Sound s) (there : s.has link) (owner : s.owner link = .spawned sql)
    (possible : s.possible link reply) (known : reply ≠ .unsent)
    (closes : ∀ error inTransaction, reply = .answered error inTransaction → inTransaction = false) :
    Sound ((s.hear link reply).destroy link inline) := by
  have heard : Sound (s.hear link reply) := sound.hear there fun _ _ => .inr (.inl ⟨sql, owner⟩)
  refine heard.destroy (by rwa [has_hear]) (heard.unowned fun t owns => ?_) (fun _ => ?_) inline
  · rw [owner_hear, owner] at owns
    cases owns
  · rw [session_hear]
    exact ended possible known closes

theorem Sound.release (sound : Sound s) (present : s.tx t = some tx) : Sound (s.release t tx) := by
  simp only [State.release, PgTransaction.release]
  cases finished : tx.done with
  | false => exact sound
  | true =>
    cases conn : tx.conn with
    | none =>
      refine sound.setTx present _ ?_ ?_
      · rintro tx' ⟨⟩
        exact ⟨conn.symm, fun _ => rfl⟩
      · intro link conn'
        rw [conn] at conn'
        cases conn'
    | some link =>
      refine sound.handOver present conn _ ?_ _
        (.inr (sound.settled_of_done ⟨tx, present, finished, conn⟩))
      rintro tx' ⟨⟩
      exact ⟨rfl, rfl⟩

theorem Sound.destruct (sound : Sound s) (present : s.tx t = some tx)
    (gone : s.destruct t tx inline = some u) : Sound u := by
  simp only [State.destruct, PgTransaction.atDestruction] at gone
  cases finished : tx.done with
  | false =>
    cases conn : tx.conn with
    | none =>
      have := sound.held t tx present conn
      rw [finished] at this
      cases this
    | some link =>
      simp only [finished, conn] at gone
      cases gone
      exact sound.handOver present conn none nofun _ (.inl ⟨_, rfl⟩)
  | true =>
    have removed : Sound (s.setTx t none) := by
      apply sound.setTx present none nofun
      intro link conn unfinished
      rw [finished] at unfinished
      cases unfinished
    cases conn : tx.conn with
    | none =>
      simp only [finished, conn] at gone
      cases gone
      exact removed
    | some link =>
      simp only [finished, conn] at gone
      cases gone
      refine removed.destroy (sound.owned t tx link present conn).1 ?_ ?_ inline
      · intro t' tx' present' conn'
        rcases setTx_cases present' with ⟨-, ⟨⟩⟩ | ⟨same, present'⟩
        exact same (sound.owner_unique present conn present' conn')
      · exact fun _ => sound.settled_of_done ⟨tx, present, finished, conn⟩

theorem step_spawned (took : step s (.spawned link reply inline) = some u) :
    ∃ sql, s.owner link = .spawned sql ∧ s.has link ∧ reply ≠ .unsent ∧ s.possible link reply ∧
      u = (s.hear link reply).destroy link inline := by
  simp only [step] at took
  cases owner : s.owner link with
  | spawned sql =>
    simp only [owner] at took
    obtain ⟨⟨there, known, possible⟩, rfl⟩ := of_ite took
    exact ⟨sql, rfl, there, known, possible, rfl⟩
  | caller | beginning | transaction => simp [owner] at took

theorem step_sound (sound : Sound s) (obeys : Obeys s action) (took : step s action = some u) :
    Sound u := by
  cases action with
  | pool action =>
    obtain ⟨kind, next, moved, rfl⟩ := step_pool took
    exact sound.withPool kind moved
  | connect =>
    cases took
    exact sound.connect
  | lose k =>
    cases took
    exact sound.lose k
  | begin link =>
    obtain ⟨⟨-, owner⟩, rfl⟩ := of_ite took
    refine sound.setOwner (sound.unowned fun t owns => ?_) (not_busy_of_owner (.inl owner)) _
    rw [owner] at owns
    cases owns
  | begun link reply inline =>
    obtain ⟨⟨there, owner, -, -⟩, rfl⟩ := of_ite took
    exact sound.begun there owner obeys
  | query t reply =>
    obtain ⟨tx, present, took⟩ := bind_eq_some_iff.mp took
    simp only [State.query] at took
    by_cases finished : tx.done
    · rw [if_pos finished] at took
      cases took
      exact sound
    · rw [if_neg finished] at took
      obtain ⟨_, _, _, _, sound'⟩ :=
        sound.statement present took fun _ _ => by simpa using finished
      exact sound'
  | commit | rollback =>
    obtain ⟨tx, present, took⟩ := bind_eq_some_iff.mp took
    refine sound.complete present ?_ took
    rintro error inTransaction rfl
    exact obeys
  | setAutoCommit t autoCommit =>
    obtain ⟨tx, present, rfl⟩ := map_eq_some_iff.mp took
    refine sound.setTx present _ ?_ ?_
    · rintro tx' ⟨⟩
      exact ⟨rfl, sound.held t tx present⟩
    · exact fun link conn unfinished => .inl ⟨_, rfl, unfinished⟩
  | release t =>
    obtain ⟨tx, present, rfl⟩ := map_eq_some_iff.mp took
    exact sound.release present
  | destroy t inline =>
    obtain ⟨tx, present, took⟩ := bind_eq_some_iff.mp took
    exact sound.destruct present took
  | spawned link reply inline =>
    obtain ⟨sql, owner, there, known, possible, rfl⟩ := step_spawned took
    apply sound.spawned there owner possible known
    rintro error inTransaction rfl
    exact obeys
  | drop link inline =>
    obtain ⟨⟨there, owner⟩, rfl⟩ := of_ite took
    refine sound.destroy there (sound.unowned fun t owns => ?_) ?_ inline
    · rw [owner] at owns
      cases owns
    · exact fun busy => absurd busy (not_busy_of_owner (.inl owner))

theorem initial_sound (maxSize : UInt64) : Sound { pool := { maxSize := maxSize } } where
  pool := Pool.initial_invariant maxSize
  bound := Pool.initial_bound maxSize
  owned := nofun
  held := nofun
  fresh _ _ := rfl
  busy _ _ unsettled := absurd (.inl rfl) unsettled

theorem reaches_sound (run : Reaches maxSize Obeys labels s) : Sound s :=
  run.invariant (initial_sound maxSize) fun sound obeys took => step_sound sound obeys took

/-- The step takes the connection from the transaction: `release`, the destructor of a finished
transaction, the end of the spawned task, or a `begin` that failed. -/
def Leaves (s : State) (link : Link) : Action → Prop
  | .release t => ∃ tx, s.tx t = some tx ∧ tx.done ∧ tx.conn = some link
  | .destroy t _ => ∃ tx, s.tx t = some tx ∧ tx.done ∧ tx.conn = some link
  | .spawned other _ _ => other = link
  | .begun other reply _ => other = link ∧ reply.result ≠ .ok ()
  | _ => False

theorem Sound.leaves (sound : Sound s) (obeys : Obeys s action) (took : step s action = some u)
    (leaves : Leaves s link action) : u.Settled (s.session link) := by
  cases action with
  | release t =>
    obtain ⟨tx, present, done, conn⟩ := leaves
    obtain ⟨tx', present', rfl⟩ := map_eq_some_iff.mp took
    rw [present] at present'
    cases present'
    have settled := sound.settled_of_done ⟨tx, present, done, conn⟩
    simp only [State.release, PgTransaction.release, done, conn]
    exact settled
  | destroy t inline =>
    obtain ⟨tx, present, done, conn⟩ := leaves
    obtain ⟨tx', present', gone⟩ := bind_eq_some_iff.mp took
    rw [present] at present'
    cases present'
    simp only [State.destruct, PgTransaction.atDestruction, done, conn] at gone
    cases gone
    rw [settled_destroy]
    exact sound.settled_of_done ⟨tx, present, done, conn⟩
  | spawned other reply inline =>
    cases leaves
    obtain ⟨-, -, -, known, possible, rfl⟩ := step_spawned took
    rw [settled_destroy]
    apply ended possible known
    rintro error inTransaction rfl
    exact obeys
  | begun other reply inline =>
    obtain ⟨rfl, failed⟩ := leaves
    obtain ⟨⟨there, owner, -, -⟩, rfl⟩ := of_ite took
    have settled := sound.settled there (not_busy_of_owner (.inr owner))
    simp only [State.begun]
    cases result : reply.result with
    | ok _ => exact absurd result failed
    | error error =>
      rw [settled_destroy]
      cases reply with
      | broken | unsent => exact settled
      | answered error inTransaction =>
        cases error with
        | none => cases result
        | some error =>
          have same : inTransaction = s.inTransaction (s.session other) := obeys
          refine settled.imp (fun closed => ?_) id
          exact (update_self _ _ _).trans (same.trans closed)
  | _ => cases leaves

theorem Sound.pooled_settled (sound : Sound s) (mem : c ∈ s.pool.conns)
    (nobody : ∀ h, s.pool.objects.Exists h → (s.pool.conn (s.pool.handle h).impl).isAlive →
      (s.pool.handle h).impl ≠ c) (alive : (s.pool.conn c).isAlive) :
    s.inTransaction (.pooled c) = false := by
  by_contra opened
  have unsettled : ¬ s.Settled (.pooled c) := by
    rintro (closed | dead)
    · exact opened closed
    · rw [show s.isAlive (.pooled c) = true from alive] at dead
      cases dead
  obtain ⟨link, there, same, -⟩ := sound.busy (.pooled c) (Pool.mem_conns_lt sound.pool mem) unsettled
  cases link with
  | plain k => cases same
  | pooled h =>
    have same : (s.pool.handle h).impl = c := Session.pooled.inj same
    exact nobody h (has_pooled.mp there) (same ▸ alive) same

/-- In every run, a connection that leaves a transaction is outside of a transaction on the server or
dead, and so is every connection that the pool keeps or has handed to a waiter. -/
theorem connection_leaves_closed (run : Reaches maxSize Obeys labels s) :
    (∀ action u link, Obeys s action → step s action = some u → Leaves s link action →
      u.inTransaction (s.session link) = false ∨ u.isAlive (s.session link) = false) ∧
    (∀ c ∈ s.pool.idle, (s.pool.conn c).isAlive → s.inTransaction (.pooled c) = false) ∧
    ∀ w < s.pool.nextWaiter, ∀ c, (s.pool.waiter w).done = false →
      (s.pool.waiter w).promise = .value c → (s.pool.conn c).isAlive →
      s.inTransaction (.pooled c) = false := by
  have sound := reaches_sound run
  refine ⟨fun action u link obeys stepped leaves => sound.leaves obeys stepped leaves, ?_, ?_⟩
  · intro c idle alive
    refine sound.pooled_settled ?_ (fun h there held same => ?_) alive
    · simp only [Pool.State.conns, Multiset.mem_add]
      exact .inl (.inl (.inl idle))
    · exact (Pool.held_once sound.pool sound.bound there held).1 (same ▸ idle)
  · intro w known c waiting value alive
    refine sound.pooled_settled ?_ (fun h there held same => ?_) alive
    · simp only [Pool.State.conns, Multiset.mem_add]
      exact .inl (.inl (.inr (Pool.carried_mem known waiting value)))
    · exact (Pool.held_once sound.pool sound.bound there held).2.1 w known waiting (same ▸ value)

/-- A pooled transaction whose COMMIT the server refuses, and which is then destroyed. -/
def refusedCommit : List Action :=
  [.pool (.acquire false), .pool (.connected 0), .pool (.resume 0), .begin (.pooled 0),
    .begun (.pooled 0) (.answered none true) false,
    .commit 0 (.answered (some (.pgQueryError "deferred" "23505")) false), .destroy 0 false]

theorem connection_leaves_closed_refused : ∃ s u, Reaches 1 Obeys refusedCommit s ∧
    step s (.spawned (.pooled 0) (.answered none false) true) = some u ∧ u.pool.idle = [0] ∧
    (u.inTransaction (s.session (.pooled 0)) = false ∨ u.isAlive (s.session (.pooled 0)) = false) := by
  have obeys : ∀ label ∈ refusedCommit, ∀ s, Obeys s label := by
    simp [refusedCommit, Obeys]
  have free : Run step free { pool := { maxSize := 1 } } refusedCommit _ :=
    .of_exec rfl
  have run : Reaches 1 Obeys refusedCommit _ := (free.restrict obeys).relax fun ok => ok _
  exact ⟨_, _, run, rfl, rfl, (connection_leaves_closed run).1
    (.spawned (.pooled 0) (.answered none false) true) _ (.pooled 0) rfl rfl rfl⟩

end Nitrocoro.Pg.Transaction
