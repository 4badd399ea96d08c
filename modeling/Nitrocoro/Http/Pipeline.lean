import Nitrocoro.Http.Outgoing
import Nitrocoro.Lib.Transition

/-! The responses of one connection: the loop of `HttpServer::handleConnection` makes one for each
request, and the coroutines that drive them run side by side. A coroutine can be suspended between
any two of its events, and a write to the stream goes out in pieces. -/
namespace Nitrocoro.Http.Pipeline
open Text

/-- What a coroutine does with the response it was given: some calls and then one that ends it. -/
structure Answer where
  env : Env
  ignoreBody : Bool
  sendDateHeader : Bool
  calls : List Call
  last : Ending
  events : List Event
  responds : (OutgoingResponse.create ignoreBody sendDateHeader).respond env last calls = .ok events

def errorAnswer (env : Env) (sendDateHeader : Bool) : Answer where
  env := env
  ignoreBody := false
  sendDateHeader := sendDateHeader
  calls := [.setStatus 400 [], .setCloseConnection true]
  last := .data (ascii "Bad Request")
  events := _
  responds := rfl

inductive Promise where
  | pending
  | satisfied
  | broken
  deriving DecidableEq

/-- A response: the promise of the one before it, all that its coroutine does, and what of that
is still to come. -/
structure Response where
  prevFuture : Option Nat
  script : List Event
  rest : List Event
  promise : Promise := .pending
  deriving DecidableEq

namespace Response

def abandon (r : Response) : Response := { r with rest := [], promise := .broken }

/-- The next event of the coroutine, and the bytes that it hands to the stream. `previous` is the
state of the promise before, and an open stream takes up to `count` bytes, but at least one. -/
def next (previous : Option Promise) (shut : Bool) (count : Nat) (r : Response) :
    Option (Response × Bytes) :=
  match r.rest with
  | [] => none
  | .awaitPrev :: rest =>
    match previous with
    | none | some .satisfied => some ({ r with rest }, [])
    | some .broken => some (r.abandon, [])
    | some .pending => none
  | .send bytes :: rest =>
    -- once the stream is shut down, `TcpConnection::write` gives 0, which nobody looks at
    if shut ∨ bytes.length ≤ max 1 count then some ({ r with rest }, bytes)
    else some ({ r with rest := .send (bytes.drop (max 1 count)) :: rest },
      bytes.take (max 1 count))
  | .finish :: rest => some ({ r with rest, promise := .satisfied }, [])

end Response

/-- Who a byte on the stream belongs to. -/
inductive Origin where
  | interim
  | response (k : Nat)
  deriving DecidableEq

/-- Where the loop of `handleConnection` is: before `parseNext`, with a request that its handler or
the loop itself answers, or gone. -/
inductive Loop where
  | parsing
  | answering (k : Nat) (handler keepAlive : Bool)
  | left
  deriving DecidableEq

structure State where
  loop : Loop := .parsing
  prevFuture : Option Nat := none
  responses : List Response := []
  /-- What is still to be written of a 100 response. -/
  interim : Bytes := []
  shut : Bool := false
  stream : List (Origin × UInt8) := []
  /-- The bytes that were written after the shutdown. -/
  lost : List (Origin × UInt8) := []
  deriving DecidableEq

inductive Label where
  /-- A request was parsed, and its response is created. -/
  | request (answer : Answer) (handler keepAlive expects : Bool)
  | badRequest (env : Env) (sendDateHeader : Bool)
  | interim (count : Nat)
  /-- The loop goes on after the answer; a handler may return before its response has ended. -/
  | returns
  | throws
  | upgraded
  /-- The coroutine of response `k` goes on. -/
  | resume (k count : Nat)
  /-- The coroutine of response `k` ends with an exception. -/
  | fails (k : Nat)

namespace State

def continueText : Bytes := ascii "HTTP/1.1 100 Continue" ++ crlf ++ crlf

def promise (s : State) (k : Nat) : Promise := (s.responses[k]?).elim .pending Response.promise

def create (answer : Answer) (handler keepAlive expects : Bool) (s : State) : State :=
  { s with
    loop := .answering s.responses.length handler keepAlive
    responses := s.responses ++
      [{ prevFuture := s.prevFuture, script := answer.events, rest := answer.events }]
    prevFuture := some s.responses.length
    interim := if expects then continueText else [] }

/-- `stream->shutdown()` as the loop ends. -/
def shutdown (s : State) : State := { s with loop := .left, shut := true }

def put (origin : Origin) (bytes : Bytes) (s : State) : State :=
  if s.shut then { s with lost := s.lost ++ bytes.map (origin, ·) }
  else { s with stream := s.stream ++ bytes.map (origin, ·) }

def setResponse (k : Nat) (r : Response) (s : State) : State :=
  { s with responses := s.responses.set k r }

def step (s : State) : Label → Option State
  | .request answer handler keepAlive expects =>
    if s.loop = .parsing then some (s.create answer handler keepAlive expects) else none
  | .badRequest env sendDateHeader =>
    if s.loop = .parsing then some (s.create (errorAnswer env sendDateHeader) false false false)
    else none
  | .interim count =>
    if s.interim = [] then none
    else some ({ s with interim := s.interim.drop (max 1 count) }.put .interim
      (s.interim.take (max 1 count)))
  | .returns =>
    match s.loop with
    | .answering k handler keepAlive =>
      -- a response of its own the loop has ended before it goes on
      if s.interim ≠ [] ∨ (handler = false ∧ s.promise k ≠ .satisfied) then none
      else if keepAlive then some { s with loop := .parsing }
      else some s.shutdown
    | _ => none
  | .throws =>
    match s.loop with
    | .answering _ true _ => if s.interim ≠ [] then none else some s.shutdown
    | _ => none
  | .upgraded =>
    match s.loop with
    | .answering _ true _ => some { s with loop := .left }
    | _ => none
  | .resume k count => do
    let r ← s.responses[k]?
    let (r, bytes) ← r.next (r.prevFuture.map s.promise) s.shut count
    some ((s.setResponse k r).put (.response k) bytes)
  | .fails k => do
    let r ← s.responses[k]?
    if r.promise = .pending then some (s.setResponse k r.abandon) else none

end State

/-- The bytes of a list of responses, each with the number of its response. -/
def tagged (bytes : Response → Bytes) (responses : List Response) : List (Nat × UInt8) :=
  responses.zipIdx.flatMap fun entry => (bytes entry.1).map (entry.2, ·)

def ofResponse : Origin × UInt8 → Option (Nat × UInt8)
  | (.interim, _) => none
  | (.response k, byte) => some (k, byte)

namespace State

/-- The bytes of the final responses that went out on the stream. -/
def final (s : State) : List (Nat × UInt8) := s.stream.filterMap ofResponse

/-- The complete responses, one after the other in the order of the requests. -/
def complete (s : State) : List (Nat × UInt8) := tagged (wire ·.script) s.responses

def AllEnded (s : State) : Prop := ∀ r ∈ s.responses, r.promise = .satisfied

end State

/-- The step does not shut down the stream while a response has bytes to send. -/
def Timely (s : State) (label : Label) : Prop :=
  ∀ t, s.step label = some t → s.shut = false → t.shut = true → ∀ r ∈ s.responses, wire r.rest = []

end Nitrocoro.Http.Pipeline
