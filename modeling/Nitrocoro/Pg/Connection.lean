import Nitrocoro.Io.Channel
import Nitrocoro.Lib.Transition
import Mathlib.Logic.Function.Basic

/-! `PgConnectionImpl`: the read loop, the queries and the cancel callbacks over one
channel and one weak promise. Everything runs on the scheduler of the channel, and
what a coroutine does between two suspensions is one step. libpq answers through the
labels of the steps; it accepts a query only on a healthy connection without a command
in progress. -/
namespace Nitrocoro.Pg.Connection
open Io

inductive Error where
  | pgCancelledError (what : String)
  | pgConnectionError (what : String)
  | pgQueryError (what : String) (sqlstate : String)
  deriving DecidableEq

/-- What the code reads of a `PGresult`: its status is TUPLES_OK or COMMAND_OK, or it has
an error message and an SQLSTATE. -/
structure PgResult where
  ok : Bool
  errorMessage : String := ""
  sqlstate : String := ""
  deriving DecidableEq

/-- What a `ResultPromise` is satisfied with; the result may be a null pointer. -/
inductive Delivery where
  | value (res : Option PgResult)
  | exception (error : Error)
  deriving DecidableEq

inductive Outcome where
  | returned (res : PgResult)
  | threw (error : Error)
  deriving DecidableEq

/-- Where `sendAndReceive` stands. -/
inductive Phase where
  | idle
  /-- In `performWrite`, suspended until the channel is writable. -/
  | flushing
  /-- In `performWrite`, about to go on. -/
  | flushReady
  /-- Suspended on the unsatisfied result promise. -/
  | waiting
  /-- The promise is satisfied and the coroutine is in the ready queue. -/
  | resuming
  | done (outcome : Outcome)
  deriving DecidableEq

def Phase.active : Phase → Bool
  | .idle | .done _ => false
  | _ => true

structure Query where
  phase : Phase := .idle
  /-- `cancelToken.isCancelled()`. -/
  cancelled : Bool := false
  /-- The cancel callback can still fire. -/
  registered : Bool := false
  delivered : Option Delivery := none
  deriving DecidableEq

inductive Coroutine where
  | readLoop
  | query (q : Nat)
  deriving DecidableEq

inductive ReadLoop where
  /-- At the head of the loop in `performRead`. -/
  | entering
  | suspended
  /-- Resumed from the wait for input. -/
  | resumed
  | terminated
  deriving DecidableEq

structure State where
  channel : Channel Coroutine := { reading := true }
  broken : Bool := false
  /-- The query whose promise `weakPromise` was set to. -/
  weakPromise : Option Nat := none
  readLoop : ReadLoop := .entering
  query : Nat → Query := fun _ => {}
  /-- `PQstatus` is `CONNECTION_OK`. -/
  healthy : Bool := true
  /-- libpq has a command in progress. -/
  command : Bool := false

def State.setQuery (s : State) (q : Nat) (query : Query) : State :=
  { s with query := Function.update s.query q query }

/-- The scheduler is given a handle; a handle in a waiter slot is that of a suspended coroutine. -/
def State.wake (s : State) : Coroutine → State
  | .readLoop => if s.readLoop = .suspended then { s with readLoop := .resumed } else s
  | .query q =>
    if (s.query q).phase = .flushing then s.setQuery q { s.query q with phase := .flushReady }
    else s

def State.schedule (s : State) (woken : Channel Coroutine × List Coroutine) : State :=
  woken.2.foldl State.wake { s with channel := woken.1 }

/-- `ctx->weakPromise.lock()`: the promise lives as long as its coroutine holds it. -/
def State.lock (s : State) : Option Nat :=
  s.weakPromise.filter fun q => (s.query q).phase.active

/-- `set_value` or `set_exception` of the promise; a suspended coroutine is scheduled. -/
def Query.satisfy (query : Query) (delivery : Delivery) : Query :=
  { query with
    delivered := some delivery
    phase := if query.phase = .waiting then .resuming else query.phase }

/-- The locked promise is satisfied and `ctx->weakPromise` reset. -/
def State.deliver (s : State) (delivery : Delivery) : State :=
  match s.lock with
  | none => s
  | some q => { s.setQuery q ((s.query q).satisfy delivery) with weakPromise := none }

/-- The broken handler belongs to the pool and does not touch the connection. -/
def handleBroken (s : State) : State :=
  if s.broken then s
  else
    let s := { s with broken := true }.schedule s.channel.cancelAll
    { s with channel := s.channel.disableAll }

/-- The end of `readLoop` after Canceled, Error or Eof. -/
def quit (s : State) (error : Error) : State :=
  { (handleBroken s).deliver (.exception error) with readLoop := .terminated }

def canceled (s : State) : State :=
  quit { s with channel := { s.channel with readCanceled := false } }
    (.pgCancelledError "PgConnection: query canceled (read)")

/-- `IoStatus::NeedRead`: wait for input. An errored channel does not suspend, the loop
goes round again. -/
def needRead (s : State) : State :=
  let channel := { s.channel with readable := false }
  if channel.errored then { s with channel := channel, readLoop := .entering }
  else
    { s with
      channel := { channel with readableWaiter := some .readLoop }
      readLoop := .suspended }

/-- What libpq makes of the input. -/
inductive Input where
  | consumeFailed
  | busy
  /-- The results that `PQgetResult` returns before it returns null. -/
  | results (all : List PgResult)
  deriving DecidableEq

/-- libpq returns results for the command in progress, and none without one. -/
def Input.possible (s : State) : Input → Bool
  | .results all => all.isEmpty == !s.command
  | _ => true

/-- The lambda of `readLoop`; `message` is `PQerrorMessage` if it fails. -/
def consume (s : State) (message : String) : Input → State
  | .consumeFailed => quit s (.pgConnectionError ("PQconsumeInput: " ++ message))
  | .busy => needRead s
  | .results all =>
    let s := { s with command := false }
    let error := Error.pgConnectionError ("PQconsumeInput: " ++ message)
    match all with
    | res :: _ =>
      let s := s.deliver (.value (some res))
      if s.healthy then needRead s else quit s error
    | [] =>
      if s.lock.isSome then quit (s.deliver (.value none)) error
      else if s.healthy then needRead s
      else quit s error

def readLoop (s : State) (input : Input) (message : String) : Option State :=
  match s.readLoop with
  | .suspended | .terminated => none
  | .entering =>
    if s.channel.readable then some (consume s message input)
    else if s.channel.errored then
      if s.channel.readCanceled then some (canceled s) else some (consume s message input)
    else some
      { s with
        channel := { s.channel with readableWaiter := some .readLoop }
        readLoop := .suspended }
  | .resumed =>
    if s.channel.readCanceled then some (canceled s) else some (consume s message input)

def leave (s : State) (q : Nat) (outcome : Outcome) : State :=
  s.setQuery q { s.query q with phase := .done outcome, registered := false }

def fail (s : State) (q : Nat) (error : Error) : State :=
  leave (handleBroken s) q (.threw error)

/-- `sendAndReceive` after `co_await resultPromise->get_future().get()`. -/
def receive (s : State) (q : Nat) : Delivery → State
  | .exception error => leave s q (.threw error)
  | .value none => fail s q (.pgConnectionError "PgConnection: no result returned")
  | .value (some res) =>
    if res.ok then leave s q (.returned res)
    else leave s q (.threw
      (.pgQueryError ("PgConnection query error: " ++ res.errorMessage) res.sqlstate))

/-- `sendAndReceive` after the flush. -/
def flushed (s : State) (q : Nat) : State :=
  if (s.query q).cancelled then
    fail s q (.pgCancelledError "PgConnection: query canceled (read)")
  else
    match (s.query q).delivered with
    | some delivery => receive s q delivery
    | none => s.setQuery q { s.query q with phase := .waiting }

/-- The result of `PQflush`: 0, positive or negative. -/
inductive Flush where
  | success
  | needWrite
  | error
  deriving DecidableEq

def waitWritable (s : State) (q : Nat) : State :=
  { s.setQuery q { s.query q with phase := .flushing } with
    channel := { s.channel with writableWaiter := some (.query q) } }

def flush (s : State) (q : Nat) (message : String) : Flush → State
  | .success => flushed { s with channel := { s.channel with writing := false } } q
  | .needWrite =>
    let s := { s with channel := { s.channel with writing := true, writable := false } }
    if s.channel.errored then s else waitWritable s q
  | .error => fail s q (.pgConnectionError ("PQflush: " ++ message))

def resumeFlush (s : State) (q : Nat) (result : Flush) (message : String) : State :=
  if s.channel.writeCanceled then
    fail { s with channel := { s.channel with writeCanceled := false } } q
      (.pgCancelledError "PgConnection: query canceled (flush)")
  else flush s q message result

/-- The cancel callback is registered and `weakPromise` set to the new promise. -/
def issue (s : State) (q : Nat) : State :=
  { s.setQuery q { s.query q with phase := .flushReady, registered := true } with
    weakPromise := some q }

/-- `performWrite` of the flush, up to its first suspension. -/
def performFlush (s : State) (q : Nat) (result : Flush) (message : String) : State :=
  if s.channel.writable then flush s q message result
  else if s.channel.errored then resumeFlush s q result message
  else waitWritable s q

/-- `sendAndReceive` on the scheduler of the channel, up to its first suspension. -/
def sendAndReceive (s : State) (q : Nat) (accepted : Bool) (result : Flush) (message : String) :
    State :=
  if (s.query q).cancelled then
    leave s q (.threw (.pgCancelledError "PgConnection: query cancelled"))
  else
    let t := issue s q
    if !accepted then fail t q (.pgConnectionError ("PQsendQueryParams: " ++ message))
    else performFlush { t with command := true } q result message

inductive Action where
  | sendAndReceive (q : Nat) (accepted : Bool) (result : Flush) (message : String)
  | resumeFlush (q : Nat) (result : Flush) (message : String)
  | receive (q : Nat)
  | readLoop (input : Input) (message : String)
  /-- The token of the query is cancelled, on any thread. -/
  | cancel (q : Nat)
  /-- The scheduler runs the cancel callback of the query. -/
  | onCancel (q : Nat)
  | handleIoEvents (ev : Events)
  /-- `PQstatus` turns bad. -/
  | lose
  deriving DecidableEq

def step (s : State) : Action → Option State
  | .sendAndReceive q accepted result message =>
    if (s.query q).phase = .idle ∧ (accepted → s.healthy ∧ s.command = false) then
      some (sendAndReceive s q accepted result message)
    else none
  | .resumeFlush q result message =>
    if (s.query q).phase = .flushReady then some (resumeFlush s q result message) else none
  | .receive q =>
    match (s.query q).phase, (s.query q).delivered with
    | .resuming, some delivery => some (receive s q delivery)
    | _, _ => none
  | .readLoop input message => if input.possible s then readLoop s input message else none
  | .cancel q => some (s.setQuery q { s.query q with cancelled := true })
  | .onCancel q =>
    if (s.query q).cancelled ∧ (s.query q).registered then
      some ((s.setQuery q { s.query q with registered := false }).schedule s.channel.cancelAll)
    else none
  | .handleIoEvents ev =>
    if s.channel.reading ∨ s.channel.writing then some (s.schedule (s.channel.handleIoEvents ev))
    else none
  | .lose => some { s with healthy := false }

/-- A run from a connected channel; connecting may have left any readiness behind. -/
abbrev Reaches (readable writable errored : Bool) (allowed : State → Action → Prop)
    (labels : List Action) (s : State) : Prop :=
  Transition.Run step allowed
    { channel := { readable := readable, writable := writable, errored := errored, reading := true } }
    labels s

end Nitrocoro.Pg.Connection
