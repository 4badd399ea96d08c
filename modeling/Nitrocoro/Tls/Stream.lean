import Nitrocoro.Io.Channel
import Nitrocoro.Lib.Lane
import Nitrocoro.Lib.Text
import Nitrocoro.Lib.Transition
import Mathlib.Logic.Function.Basic

/-! `TlsStream` over a `TcpConnection`, with any number of coroutines that call `read`, `write` and
`shutdown`. A step takes a coroutine from one suspension point to the next, or to the next system
call of a write. What the provider, the peer and the socket do is part of the step's label. -/
namespace Nitrocoro.Tls
open Text Io

inductive FeedResult where
  | ok
  | handshakeDone
  | eof
  | error
  deriving DecidableEq

/-- What a coroutine goes on with when `flushEncrypted` returns. -/
inductive Continuation where
  /-- `feedOnce` of a read of `len` bytes, with the result of `feedEncrypted`. -/
  | feed (len : Nat) (result : FeedResult)
  /-- The loop of `write`: `left` bytes to go, `n` of them encrypted. -/
  | write (left n : Nat)
  | shutdown
  deriving DecidableEq

inductive Stage where
  /-- `pendingWait` is `Write`. -/
  | wait
  /-- Suspended in `WritableAwaiter`. -/
  | suspended
  /-- About to call the writer: resumed from the awaiter, or `pendingWait` is `None`. -/
  | ready
  deriving DecidableEq

inductive PC where
  | idle
  /-- In `conn_->read`. -/
  | receiving (len : Nat)
  /-- Waiting for `writeMutex_`. -/
  | locking (len : Nat)
  /-- In the loop of `write`, with the lock. -/
  | encrypting (left : Nat)
  /-- In `conn_->write(toSend)`. -/
  | flushing (stage : Stage) (next : Continuation)
  /-- In `conn_->shutdown`. -/
  | closing
  deriving DecidableEq

/-- `TcpConnection::State` of a connection that was made. -/
inductive TcpState where
  | connected
  | localShutdown
  | peerShutdown
  | closed
  deriving DecidableEq

/-- The stream. The held part of `link` is `encryptedOutBuf_`, a piece of it is the `toSend` of the
coroutine that owns it, and its wire is what the socket has accepted. -/
structure State (Id : Type) where
  link : Lane Id UInt8 := {}
  plainBuf : Bytes := []
  eof : Bool := false
  writeMutex : Option Id := none
  tcp : TcpState := .connected
  /-- `shutdownWrite` was called on the socket. -/
  shutWrite : Bool := false
  channel : Channel Id := {}
  pc : Id → PC := fun _ => .idle

inductive Received where
  | closed
  | failed
  /-- Bytes, and what `feedEncrypted` makes of them. -/
  | fed (plain cipher : Bytes) (result : FeedResult)

inductive Answer where
  | wrote (n : Nat)
  | again
  | interrupted
  | closed
  | failed

inductive Action (Id : Type) where
  | read (i : Id) (len : Nat)
  | write (i : Id) (len : Nat)
  /-- With the output of `provider_->close`. -/
  | shutdown (i : Id) (cipher : Bytes)
  | receive (i : Id) (received : Received)
  | lock (i : Id)
  /-- With the result and the output of `sendPlain`. -/
  | encrypt (i : Id) (n : Int) (cipher : Bytes)
  /-- The loop of `performWrite` up to its next suspension or system call. -/
  | put (i : Id) (answer : Answer)
  | close (i : Id)
  | events (ev : Events)

namespace State
variable {Id : Type} [DecidableEq Id]

def goto (i : Id) (pc : PC) (s : State Id) : State Id :=
  { s with pc := Function.update s.pc i pc }

/-- The head of the loop in `read`. -/
def readLoop (i : Id) (len : Nat) (s : State Id) : State Id :=
  if s.plainBuf = [] ∧ s.eof = false then s.goto i (.receiving len)
  else { s with plainBuf := s.plainBuf.drop len }.goto i .idle

def unlock (i : Id) (s : State Id) : State Id := { s with writeMutex := none }.goto i .idle

/-- `flushEncrypted` returned. -/
def resume (i : Id) (ok : Bool) (s : State Id) : Continuation → State Id
  | .feed len result =>
    if ok = false then { s with eof := true }.readLoop i len
    else if result = .error then s.goto i .idle
    else { s with eof := s.eof || result == FeedResult.eof }.readLoop i len
  | .write left n => if ok = false ∨ left ≤ n then s.unlock i else s.goto i (.encrypting (left - n))
  | .shutdown => s.goto i .closing

/-- `flushEncrypted` let an exception through. -/
def unwind (i : Id) (s : State Id) : Continuation → State Id
  | .write _ _ => s.unlock i
  | _ => s.goto i .idle

def flushEncrypted (i : Id) (next : Continuation) (s : State Id) : State Id :=
  if s.link.held = [] then s.resume i true next
  else { s with link := s.link.begin i }.goto i (.flushing .wait next)

def receive (i : Id) (len : Nat) (s : State Id) : Received → State Id
  | .closed =>
    let tcp := if s.tcp = .localShutdown then .closed else .peerShutdown
    { s with tcp, eof := true }.readLoop i len
  | .failed => { s with tcp := .closed }.goto i .idle
  | .fed plain cipher result =>
    { s with plainBuf := s.plainBuf ++ plain, link := s.link.produce cipher }.flushEncrypted i
      (.feed len result)

def encrypt (i : Id) (left : Nat) (n : Int) (cipher : Bytes) (s : State Id) : State Id :=
  let s := { s with link := s.link.produce cipher }
  if n ≤ 0 then s.unlock i else s.flushEncrypted i (.write left n.toNat)

/-- The piece of a write that failed has no flush any more, but one that the connection's own shutdown
has cut off is left as it is. -/
def giveUp (i : Id) (s : State Id) : Lane Id UInt8 :=
  if s.shutWrite then s.link else s.link.abandon i

def callWriter (i : Id) (next : Continuation) (s : State Id) : Answer → Option (State Id)
  | .wrote n =>
    -- a socket that was shut down for writing takes no more bytes
    if s.shutWrite then none
    else match s.link.send i n with
      | none => none
      | some (link, true) =>
        let channel := { s.channel with writing := false }
        some ({ s with link, channel }.resume i true next)
      | some (link, false) => some ({ s with link }.goto i (.flushing .ready next))
  | .again =>
    let channel := { s.channel with writable := false, writing := true }
    some ({ s with channel }.goto i (.flushing .wait next))
  | .interrupted => some (s.goto i (.flushing .ready next))
  | .closed => some ({ s with tcp := .closed, link := s.giveUp i }.resume i false next)
  | .failed => some ({ s with tcp := .closed, link := s.giveUp i }.unwind i next)

def Waits (stage : Stage) (s : State Id) : Prop :=
  stage = .wait ∧ s.channel.writable = false ∧ s.channel.errored = false

instance (stage : Stage) (s : State Id) : Decidable (s.Waits stage) :=
  inferInstanceAs (Decidable (_ ∧ _))

/-- There is one place for a handle: a second one takes it. -/
def suspend (i : Id) (next : Continuation) (s : State Id) : State Id :=
  { s with channel := { s.channel with writableWaiter := some i } }.goto i
    (.flushing .suspended next)

/-- `TcpConnection::shutdown`. -/
def close (i : Id) (s : State Id) : State Id :=
  match s.tcp with
  | .localShutdown | .closed => s.goto i .idle
  | .peerShutdown => { s with tcp := .closed, shutWrite := true }.goto i .idle
  | .connected => { s with tcp := .localShutdown, shutWrite := true }.goto i .idle

def wake (s : State Id) (i : Id) : State Id :=
  match s.pc i with
  | .flushing .suspended next => s.goto i (.flushing .ready next)
  | _ => s

def step (s : State Id) : Action Id → Option (State Id)
  | .read i len => if s.pc i = .idle then some (s.readLoop i len) else none
  | .write i len =>
    if s.pc i ≠ .idle then none
    else if len = 0 then some s
    else some (s.goto i (.locking len))
  | .shutdown i cipher =>
    if s.pc i = .idle then
      some ({ s with link := s.link.produce cipher }.flushEncrypted i .shutdown)
    else none
  | .receive i received =>
    match s.pc i with
    | .receiving len => some (s.receive i len received)
    | _ => none
  | .lock i =>
    match s.pc i, s.writeMutex with
    | .locking len, none => some ({ s with writeMutex := some i }.goto i (.encrypting len))
    | _, _ => none
  | .encrypt i n cipher =>
    match s.pc i with
    | .encrypting left => some (s.encrypt i left n cipher)
    | _ => none
  | .put i answer =>
    match s.pc i with
    | .flushing .suspended _ => none
    | .flushing stage next =>
      if s.Waits stage then some (s.suspend i next) else s.callWriter i next answer
    | _ => none
  | .close i => if s.pc i = .closing then some (s.close i) else none
  | .events ev =>
    let (channel, woken) := s.channel.handleIoEvents ev
    some (woken.foldl wake { s with channel })

end State

/-- A stream after its handshake: no coroutine uses it and nothing is left to send. -/
def start {Id : Type} (plainBuf : Bytes) (writable : Bool) : State Id :=
  { plainBuf, channel := { writable } }

end Nitrocoro.Tls
