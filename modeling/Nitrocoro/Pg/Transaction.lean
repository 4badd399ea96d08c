import Nitrocoro.Pg.Connection
import Nitrocoro.Pg.Pool

/-! `PgTransaction` over the connections of a pool and over connections that were made by
`PgConnection::connect`. A statement is one step, in which the server answers or the connection
turns out to be broken; the tasks of the scheduler, the pool and any number of transactions
interleave. -/
namespace Nitrocoro.Pg.Transaction
open Function

inductive Error where
  | pgTransactionError (what : String)
  /-- What `query` or `execute` of the connection threw. -/
  | connection (error : Connection.Error)
  deriving DecidableEq

inductive Reply where
  /-- The server answers, and says whether it is inside a transaction now. -/
  | answered (error : Option Connection.Error) (inTransaction : Bool)
  /-- The connection is broken. -/
  | broken (error : Connection.Error)
  /-- The token was cancelled before anything was sent. -/
  | unsent
  deriving DecidableEq

def Reply.result : Reply → Except Error Unit
  | .answered none _ => .ok ()
  | .answered (some error) _ => .error (.connection error)
  | .broken error => .error (.connection error)
  | .unsent => .error (.connection (.pgCancelledError "PgConnection: query cancelled"))

/-- The object behind a `std::unique_ptr<PgConnection>`: a `PooledConnection`, or a
`PgConnectionImpl` that belongs to no pool. -/
inductive Link where
  | pooled (h : Nat)
  | plain (k : Nat)
  deriving DecidableEq

inductive Session where
  | pooled (c : Nat)
  | plain (k : Nat)
  deriving DecidableEq

structure PgTransaction where
  conn : Option Link
  done : Bool := false
  autoCommit : Bool := false
  deriving DecidableEq

inductive Sql where
  | commit
  | rollback
  deriving DecidableEq

namespace PgTransaction

def query (tx : PgTransaction) (reply : Reply) : Except Error Unit :=
  if tx.done then .error (.pgTransactionError "Transaction already finished") else reply.result

def execute (tx : PgTransaction) (reply : Reply) : Except Error Unit := tx.query reply

/-- `commit` and `rollback`, which differ in the statement. -/
def complete (tx : PgTransaction) (reply : Reply) : Except Error PgTransaction := do
  tx.execute reply
  .ok { tx with done := true }

def commit (tx : PgTransaction) (reply : Reply) : Except Error PgTransaction := tx.complete reply

def rollback (tx : PgTransaction) (reply : Reply) : Except Error PgTransaction := tx.complete reply

def setAutoCommit (tx : PgTransaction) (autoCommit : Bool) : PgTransaction := { tx with autoCommit }

def release (tx : PgTransaction) : Except Error (Option Link × PgTransaction) :=
  if !tx.done then
    .error (.pgTransactionError "Cannot release connection before commit/rollback")
  else .ok (tx.conn, { tx with conn := none })

def atDestruction (tx : PgTransaction) : Option Sql :=
  if !tx.done then some (if tx.autoCommit then .commit else .rollback) else none

end PgTransaction

/-- Who has the `std::unique_ptr` of a connection. -/
inductive Owner where
  /-- Code that runs no transaction on it. -/
  | caller
  /-- `PgTransaction::begin`, which executes BEGIN. -/
  | beginning
  | transaction (t : Nat)
  /-- The task that the destructor of a transaction spawned. -/
  | spawned (sql : Sql)
  deriving DecidableEq

structure Plain where
  broken : Bool := false
  destroyed : Bool := false
  deriving DecidableEq

structure State where
  pool : Pool.State
  plain : Nat → Plain := fun _ => {}
  nextPlain : Nat := 0
  owner : Link → Owner := fun _ => .caller
  tx : Nat → Option PgTransaction := fun _ => none
  nextTx : Nat := 0
  /-- The server is inside a transaction. -/
  inTransaction : Session → Bool := fun _ => false

def State.session (s : State) : Link → Session
  | .pooled h => .pooled (s.pool.handle h).impl
  | .plain k => .plain k

def State.isAlive (s : State) : Session → Bool
  | .pooled c => (s.pool.conn c).isAlive
  | .plain k => !(s.plain k).broken

def State.has (s : State) : Link → Bool
  | .pooled h => h < s.pool.nextHandle && !(s.pool.handle h).destroyed
  | .plain k => k < s.nextPlain && !(s.plain k).destroyed

def State.setOwner (s : State) (link : Link) (owner : Owner) : State :=
  { s with owner := update s.owner link owner }

def State.setTx (s : State) (t : Nat) (tx : Option PgTransaction) : State :=
  { s with tx := update s.tx t tx }

/-- A statement on a connection can end this way: it fails for the connection only when that is
broken. -/
def State.possible (s : State) (link : Link) : Reply → Bool
  | .broken _ => !s.isAlive (s.session link)
  | _ => true

def State.hear (s : State) (link : Link) : Reply → State
  | .answered _ inTransaction =>
    { s with inTransaction := update s.inTransaction (s.session link) inTransaction }
  | _ => s

def State.destroy (s : State) (link : Link) (inline : Bool) : State :=
  match link with
  | .pooled h => { s with pool := Pool.destroy s.pool h inline }
  | .plain k => { s with plain := update s.plain k { s.plain k with destroyed := true } }

/-- A statement through the transaction; a null `conn_` is never dereferenced. -/
def State.statement (s : State) (tx : PgTransaction) (reply : Reply) : Option State :=
  match tx.conn with
  | none => none
  | some link => if s.possible link reply then some (s.hear link reply) else none

/-- `query` and `execute`: nothing is sent when they throw for a finished transaction. -/
def State.query (s : State) (tx : PgTransaction) (reply : Reply) : Option State :=
  if tx.done then some s else s.statement tx reply

/-- `commit` and `rollback`, whose statements have no token; `result` is what they leave of the
transaction. -/
def State.complete (s : State) (t : Nat) (tx : PgTransaction) (reply : Reply)
    (result : Except Error PgTransaction) : Option State :=
  if tx.done then some s
  else if reply = .unsent then none
  else (s.statement tx reply).map fun s =>
    match result with
    | .ok tx => s.setTx t (some tx)
    | .error _ => s

/-- `begin` after its statement: the transaction is constructed, or the connection goes with the
frame of the coroutine. -/
def State.begun (s : State) (link : Link) (reply : Reply) (inline : Bool) : State :=
  let s := s.hear link reply
  match reply.result with
  | .ok _ =>
    { (s.setTx s.nextTx (some { conn := some link })).setOwner link (.transaction s.nextTx) with
      nextTx := s.nextTx + 1 }
  | .error _ => s.destroy link inline

def State.release (s : State) (t : Nat) (tx : PgTransaction) : State :=
  match tx.release with
  | .error _ => s
  | .ok (none, tx) => s.setTx t (some tx)
  | .ok (some link, tx) => (s.setTx t (some tx)).setOwner link .caller

def State.destruct (s : State) (t : Nat) (tx : PgTransaction) (inline : Bool) : Option State :=
  match tx.atDestruction, tx.conn with
  | some sql, some link => some ((s.setTx t none).setOwner link (.spawned sql))
  -- the task would use a null pointer
  | some _, none => none
  | none, some link => some ((s.setTx t none).destroy link inline)
  | none, none => some (s.setTx t none)

inductive Action where
  /-- A step of the pool in which no `PooledConnection` is destroyed. -/
  | pool (action : Pool.Action)
  /-- `PgConnection::connect` returns. -/
  | connect
  /-- A connection that belongs to no pool breaks. -/
  | lose (k : Nat)
  | begin (link : Link)
  | begun (link : Link) (reply : Reply) (inline : Bool)
  /-- `query` or `execute`. -/
  | query (t : Nat) (reply : Reply)
  | commit (t : Nat) (reply : Reply)
  | rollback (t : Nat) (reply : Reply)
  | setAutoCommit (t : Nat) (autoCommit : Bool)
  | release (t : Nat)
  /-- The destructor of a transaction. -/
  | destroy (t : Nat) (inline : Bool)
  /-- The statement of the spawned task ends, and the task with it. -/
  | spawned (link : Link) (reply : Reply) (inline : Bool)
  /-- The caller destroys a connection. -/
  | drop (link : Link) (inline : Bool)
  deriving DecidableEq

/-- The server starts a session outside a transaction. -/
def State.withPool (s : State) (pool : Pool.State) : State :=
  { s with
    pool
    inTransaction := fun session =>
      match session with
      | .pooled c => s.inTransaction session && c < s.pool.nextConn
      | .plain _ => s.inTransaction session }

def State.connect (s : State) : State :=
  { s with
    plain := update s.plain s.nextPlain {}
    nextPlain := s.nextPlain + 1
    inTransaction := update s.inTransaction (.plain s.nextPlain) false }

def step (s : State) : Action → Option State
  | .pool (.destroy _ _) => none
  | .pool action => (Pool.step s.pool action).map s.withPool
  | .connect => some s.connect
  | .lose k => some { s with plain := update s.plain k { s.plain k with broken := true } }
  | .begin link =>
    if s.has link ∧ s.owner link = .caller then some (s.setOwner link .beginning) else none
  | .begun link reply inline =>
    if s.has link ∧ s.owner link = .beginning ∧ reply ≠ .unsent ∧ s.possible link reply then
      some (s.begun link reply inline)
    else none
  | .query t reply => (s.tx t).bind fun tx => s.query tx reply
  | .commit t reply => (s.tx t).bind fun tx => s.complete t tx reply (tx.commit reply)
  | .rollback t reply => (s.tx t).bind fun tx => s.complete t tx reply (tx.rollback reply)
  | .setAutoCommit t autoCommit =>
    (s.tx t).map fun tx => s.setTx t (some (tx.setAutoCommit autoCommit))
  | .release t => (s.tx t).map fun tx => s.release t tx
  | .destroy t inline => (s.tx t).bind fun tx => s.destruct t tx inline
  | .spawned link reply inline =>
    match s.owner link with
    | .spawned _ =>
      if s.has link ∧ reply ≠ .unsent ∧ s.possible link reply then
        some ((s.hear link reply).destroy link inline)
      else none
    | _ => none
  | .drop link inline =>
    if s.has link ∧ s.owner link = .caller then some (s.destroy link inline) else none

/-- What the server is trusted with: it ends the transaction on every COMMIT and ROLLBACK that it
answers, and a BEGIN that it refuses opens none. -/
def Obeys (s : State) : Action → Prop
  | .begun link (.answered (some _) inTransaction) _ =>
    inTransaction = s.inTransaction (s.session link)
  | .commit _ (.answered _ inTransaction) => inTransaction = false
  | .rollback _ (.answered _ inTransaction) => inTransaction = false
  | .spawned _ (.answered _ inTransaction) _ => inTransaction = false
  | _ => True

/-- A run of a pool constructed with this `maxSize`, of its users and of users without a pool. -/
abbrev Reaches (maxSize : UInt64) (allowed : State → Action → Prop) (labels : List Action)
    (s : State) : Prop :=
  Transition.Run step allowed { pool := { maxSize := maxSize } } labels s

end Nitrocoro.Pg.Transaction
