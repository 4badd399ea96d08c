import Mathlib.Data.PNat.Notation
import Nitrocoro.Http.BodyReader
import Nitrocoro.Http.Head
import Nitrocoro.Http.Router

/-! `HttpServer::handleConnection`: the requests of one connection, one after the other. What
the router and the handlers do is a parameter; what they answer is not looked at here. -/
namespace Nitrocoro.Http
open Text

/-- What becomes of a response, and with it of its `finishedPromise_`: it ends, be it after the
handler has returned, it is destroyed before, or it is kept and never ends. -/
inductive Finish where
  | ended
  | dropped
  | held
  deriving DecidableEq

/-- A handler as the connection sees it: the lengths of its reads, how it ends, and what it does
with its response. -/
structure Handler where
  reads : List ℕ+ := []
  throws : Bool := false
  response : Finish := .ended

structure RouteResult where
  reason : RouteReason
  handler : Option Handler := none
  allowedMethods : Bytes := []

/-- A server; `route` and `requestUpgrader` answer for the request with a given number on the
connection, so that they may change between requests. -/
structure HttpServer where
  registry : MethodRegistry
  route : Nat → HttpMethod → Bytes → RouteResult
  /-- Whether the upgrader takes the connection over. -/
  requestUpgrader : Option (Nat → HttpRequest → Bool) := none

/-- Who answers a request, and with what when it is the server itself. -/
inductive Reply where
  | handler (continued : Bool)
  | badRequest
  | notFound
  | methodNotAllowed (allow : Bytes)
  | allowedMethods (allow : Bytes)
  | expectationFailed
  | upgraded
  deriving DecidableEq

/-- A request that was parsed: where its parsing began, and what its handler read of the body. -/
structure Exchange where
  start : Bytes
  message : HttpRequest
  seen : Bytes
  reply : Reply
  response : Finish
  deriving DecidableEq

inductive Outcome where
  | badRequest (code : HttpParseError) (message : Bytes)
  | notKeptAlive
  | upgraded
  | handlerThrew
  | brokenPromise
  | waiting
  | threw (e : Exn)
  deriving DecidableEq

def isUpgradeRequest (request : HttpRequest) : Bool :=
  let connection := request.headers.value .Connection
  connection ≠ [] && (find (ascii "upgrade") (toLower connection)).isSome &&
    request.headers.value .Upgrade ≠ []

def readBody : List ℕ+ → BodyReader → Source → Except Exn (Bytes × BodyReader × Source)
  | [], b, c => .ok ([], b, c)
  | len :: lens, b, c => do
    let (first, b, c) ← b.read len c
    let (more, b, c) ← readBody lens b c
    .ok (first ++ more, b, c)

namespace HttpServer
variable (server : HttpServer)

/-- `prevFuture_->get()` before the head of a response. -/
def awaitPrev : Finish → Except Outcome Unit
  | .ended => .ok ()
  | .dropped => .error .brokenPromise
  | .held => .error .waiting

/-- The branches of `handleConnection` between parsing and draining; `prev` is what became of the
response before, for which the server's own replies wait. -/
def answer (prev : Finish) (k : Nat) (request : HttpRequest) (b : BodyReader) (c : Source) :
    Except Outcome (Reply × Finish × Bytes × BodyReader × Source) :=
  let own (reply : Reply) := (awaitPrev prev).map fun _ => (reply, Finish.ended, [], b, c)
  if request.method = .invalid then own .badRequest
  else
    let result := server.route k request.method request.path
    match result.reason, result.handler with
    | .ok, some handler =>
      let expect := request.headers.value .Expect
      if expect ≠ [] ∧ expect ≠ ascii "100-continue" then own .expectationFailed
      else match readBody handler.reads b c with
        | .error _ => .error .handlerThrew
        | .ok (seen, b, c) =>
          if handler.throws then .error .handlerThrew
          else .ok (.handler (expect ≠ []), handler.response, seen, b, c)
    | .methodNotAllowed, _ =>
      if request.method = .options then own (.allowedMethods result.allowedMethods)
      else own (.methodNotAllowed result.allowedMethods)
    | _, _ => own .notFound

def drainBody (b : BodyReader) (c : Source) : Except Exn Source :=
  if b.isComplete then .ok c
  else do
    let (_, c) ← b.drain c
    .ok c

def previous (done : List Exchange) : Finish := (done.getLast?.map Exchange.response).getD .ended

def handle (done : List Exchange) (start : Bytes) (request : HttpRequest) (c : Source) :
    (List Exchange × Source) ⊕ (List Exchange × Outcome) :=
  let upgrade := isUpgradeRequest request && server.requestUpgrader.any (· done.length request)
  if upgrade then .inr (done ++ [⟨start, request, [], .upgraded, .ended⟩], .upgraded)
  else
    match server.answer (previous done) done.length request
        (.create request.transferMode request.contentLength) c with
    | .error outcome => .inr (done, outcome)
    | .ok (reply, response, seen, b, c) =>
      let done := done ++ [⟨start, request, seen, reply, response⟩]
      match drainBody b c with
      | .error e => .inr (done, .threw e)
      | .ok c => if request.keepAlive then .inl (done, c) else .inr (done, .notKeptAlive)

def round : List Exchange × Source → (List Exchange × Source) ⊕ (List Exchange × Outcome)
  | (done, c) =>
    match (requestHead server.registry).parseNext c with
    | .error e => .inr (done, .threw e)
    | .ok (parsed, d) =>
      if parsed.errorCode ≠ .none then
        match awaitPrev (previous done) with
        | .error outcome => .inr (done, outcome)
        | .ok _ => .inr (done, .badRequest parsed.errorCode parsed.errorMessage)
      else server.handle done c.unread parsed.message d

theorem readBody_size (done : readBody lens b c = .ok (seen, b', d)) : d.size ≤ c.size := by
  induction lens generalizing b c seen with
  | nil =>
    cases done
    exact Nat.le_refl _
  | cons len lens ih =>
    obtain ⟨⟨first, b₁, c₁⟩, read, done⟩ := bind_eq_ok.mp done
    obtain ⟨⟨more, b₂, c₂⟩, rest, same⟩ := bind_eq_ok.mp done
    cases same
    exact Nat.le_trans (ih rest) (BodyReader.read_size read)

theorem answer_size
    (answered : server.answer prev k request b c = .ok (reply, response, seen, b', d)) :
    d.size ≤ c.size := by
  have own {reply' : Reply} (replied : (awaitPrev prev).map (fun _ =>
      (reply', Finish.ended, ([] : Bytes), b, c)) = .ok (reply, response, seen, b', d)) :
      d.size ≤ c.size := by
    cases prev <;> cases replied
    exact Nat.le_refl _
  simp only [answer] at answered
  split at answered
  · exact own answered
  split at answered
  · split at answered
    · exact own answered
    split at answered
    · cases answered
    rename_i read
    split at answered
    · cases answered
    · cases answered
      exact readBody_size read
  · split at answered <;> exact own answered
  · exact own answered

theorem drainBody_size (drained : drainBody b c = .ok d) : d.size ≤ c.size := by
  simp only [drainBody] at drained
  split at drained
  · cases drained
    exact Nat.le_refl _
  · obtain ⟨⟨b', e⟩, drained', same⟩ := bind_eq_ok.mp drained
    cases same
    exact BodyReader.drain_size drained'

theorem handle_size (goes : server.handle done start request c = .inl (done', d)) :
    d.size ≤ c.size := by
  simp only [handle] at goes
  split at goes
  · cases goes
  split at goes
  · cases goes
  rename_i answered
  split at goes
  · cases goes
  rename_i drained
  split at goes
  · cases goes
    exact Nat.le_trans (drainBody_size drained) (server.answer_size answered)
  · cases goes

theorem round_decreases : Loop.Decreases server.round (fun s => s.2.size) := by
  rintro ⟨done, c⟩ ⟨done', d⟩ goes
  simp only [round] at goes
  split at goes
  · cases goes
  rename_i parsed e read
  split at goes
  · split at goes <;> cases goes
  · rename_i ok
    have parsedSize := ((requestHead server.registry).parseNext_size read).2 (not_not.mp ok)
    exact Nat.lt_of_le_of_lt (server.handle_size goes) parsedSize

/-- The requests that were answered on a connection, and why it ended. -/
def handleConnection (c : Source) : List Exchange × Outcome :=
  Loop.run server.round_decreases ([], c)

end HttpServer
end Nitrocoro.Http
