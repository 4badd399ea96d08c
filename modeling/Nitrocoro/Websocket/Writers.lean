import Nitrocoro.Lib.Blocks
import Nitrocoro.Tls.Stream
import Nitrocoro.Websocket.Frames

/-! Coroutines that use one `WsConnection` over a `TcpConnection`: one that receives, and any number
that call `send` and `shutdown`. `sendFrame` takes no lock. A step takes a coroutine from one
suspension point to the next, or to the next system call of a write, which is the one that
`TlsStream` uses as well. -/
namespace Nitrocoro.Websocket.Writers
open Text Io
open Tls (Stage)

/-- What a coroutine goes on with when `sendFrame` returns. -/
inductive Continuation where
  /-- `send` or `shutdown` returns. -/
  | returns
  /-- The loop of `receive` goes on. -/
  | receive (payload : Bytes) (finalOpcode : Opcode)
  deriving DecidableEq

inductive PC where
  | idle
  /-- At the head of the loop of `receive`. -/
  | receiving (payload : Bytes) (finalOpcode : Opcode)
  /-- In `stream_->write` of `sendFrame`. -/
  | writing (stage : Stage) (next : Continuation)
  deriving DecidableEq

/-- The connection. The blocks of `out` are the frames that coroutines have begun to write, and its
wire is what the socket has accepted. -/
structure State (Id : Type) where
  stream : Stream := {}
  receiver : Option Id := none
  out : Blocks Id UInt8 := {}
  channel : Channel Id := {}
  pc : Id → PC := fun _ => .idle

inductive Action (Id : Type) where
  | send (i : Id) (data : Bytes) (type : WsMessageType)
  | shutdown (i : Id) (code : CloseCode) (reason : Bytes)
  | receive (i : Id)
  /-- The receiver takes its next frame. -/
  | read (i : Id)
  /-- The loop of `performWrite` up to its next suspension or system call. -/
  | put (i : Id) (answer : Tls.Answer)
  | events (ev : Events)

namespace State
variable {Id : Type} [DecidableEq Id]

def goto (i : Id) (pc : PC) (s : State Id) : State Id :=
  { s with pc := Function.update s.pc i pc }

/-- `sendFrame` calls `stream_->write`. -/
def writeFrame (i : Id) (frame : Bytes) (next : Continuation) (s : State Id) : State Id :=
  { s with out := s.out.begin i frame }.goto i (.writing .wait next)

def resume (i : Id) (s : State Id) : Continuation → State Id
  | .returns => s.goto i .idle
  | .receive payload finalOpcode => s.goto i (.receiving payload finalOpcode)

/-- `sendFrame` let an exception through. -/
def unwind (i : Id) (s : State Id) : Continuation → State Id
  | .returns => s.goto i .idle
  | .receive _ _ => { s with receiver := none }.goto i .idle

/-- A round of `receive` up to the write of a Pong. -/
def read (i : Id) (payload : Bytes) (finalOpcode : Opcode) (s : State Id) : State Id :=
  match WsConnection.round (payload, finalOpcode, { stream := s.stream }) with
  | .inl (payload, finalOpcode, { stream, written := [] }) =>
    { s with stream }.goto i (.receiving payload finalOpcode)
  | .inl (payload, finalOpcode, { stream, written := frame :: _ }) =>
    { s with stream }.writeFrame i frame (.receive payload finalOpcode)
  | .inr (.ok (_, { stream, .. })) => { s with stream, receiver := none }.goto i .idle
  | .inr (.error _) => { s with receiver := none }.goto i .idle

def callWriter (i : Id) (next : Continuation) (s : State Id) : Tls.Answer → Option (State Id)
  | .wrote n =>
    match s.out.put i n with
    | none => none
    | some (out, true) =>
      let channel := { s.channel with writing := false }
      some ({ s with out, channel }.resume i next)
    | some (out, false) => some ({ s with out }.goto i (.writing .ready next))
  | .again =>
    let channel := { s.channel with writable := false, writing := true }
    some ({ s with channel }.goto i (.writing .wait next))
  | .interrupted => some (s.goto i (.writing .ready next))
  -- `TcpConnection::write` gives 0, which `sendFrame` does not look at
  | .closed => some ({ s with out := s.out.abandon i }.resume i next)
  | .failed => some ({ s with out := s.out.abandon i }.unwind i next)

def Waits (stage : Stage) (s : State Id) : Prop :=
  stage = .wait ∧ s.channel.writable = false ∧ s.channel.errored = false

instance (stage : Stage) (s : State Id) : Decidable (s.Waits stage) :=
  inferInstanceAs (Decidable (_ ∧ _))

/-- There is one place for a handle: a second one takes it. -/
def suspend (i : Id) (next : Continuation) (s : State Id) : State Id :=
  { s with channel := { s.channel with writableWaiter := some i } }.goto i
    (.writing .suspended next)

def wake (s : State Id) (i : Id) : State Id :=
  match s.pc i with
  | .writing .suspended next => s.goto i (.writing .ready next)
  | _ => s

def step (s : State Id) : Action Id → Option (State Id)
  | .send i data type =>
    if s.pc i = .idle then
      some (s.writeFrame i (WsConnection.frame type.opcode.code data) .returns)
    else none
  | .shutdown i code reason =>
    if s.pc i = .idle then
      some (s.writeFrame i
        (WsConnection.frame Opcode.close.code (WsConnection.closePayload code reason)) .returns)
    else none
  | .receive i =>
    if s.pc i = .idle ∧ s.receiver = none then
      some ({ s with receiver := some i }.goto i (.receiving [] .continuation))
    else none
  | .read i =>
    match s.pc i with
    | .receiving payload finalOpcode => some (s.read i payload finalOpcode)
    | _ => none
  | .put i answer =>
    match s.pc i with
    | .writing .suspended _ => none
    | .writing stage next =>
      if s.Waits stage then some (s.suspend i next) else s.callWriter i next answer
    | _ => none
  | .events ev =>
    let (channel, woken) := s.channel.handleIoEvents ev
    some (woken.foldl wake { s with channel })

end State

/-- A connection that no coroutine uses, and the bytes that the peer is going to send. -/
def start {Id : Type} (stream : Stream) (writable : Bool) : State Id :=
  { stream, channel := { writable } }

end Nitrocoro.Websocket.Writers
