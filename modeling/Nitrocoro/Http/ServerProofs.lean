import Nitrocoro.Http.ChunkedReads
import Nitrocoro.Http.ParserProofs
import Nitrocoro.Http.Server

/-! Pipelined requests stay in step: each round of `handleConnection` uses up exactly the bytes
of one request, whatever its handler reads. -/
namespace Nitrocoro.Http
open Text Request

namespace Request
variable {reg : MethodRegistry} (r : Request reg)

theorem carries (moderate : r.framing.Moderate) (valid : c.Valid)
    (whole : c.unread = r.framing.encode ++ tail) :
    Carries tail (BodyReader.create r.message.transferMode r.message.contentLength).impl c
      r.framing.body :=
  .create r.framing moderate valid whole

theorem header_value_nil (code : NameCode) (other : code.codeToName ≠ NameCode.Cookie.codeToName)
    (absent : ∀ f ∈ r.fields, ¬ f.Is code) : r.message.headers.value code = [] := by
  simp only [HttpHeaderMap.value, message, r.lookup_headers code other, r.find?_none absent,
    Option.map_none]

theorem not_upgrade : isUpgradeRequest r.message = false := by
  have absent := r.header_value_nil .Upgrade (by decide) fun f mem => (r.plain f mem).1
  simp [isUpgradeRequest, absent]

theorem no_expect : r.message.headers.value .Expect = [] :=
  r.header_value_nil .Expect (by decide) fun f mem => (r.plain f mem).2

end Request

theorem readBody_spec (lens : List ℕ+) (carries : Carries tail b.impl c body)
    (fresh : b.draining = false) :
    ∃ seen b' d rest, readBody lens b c = .ok (seen, b', d) ∧ body = seen ++ rest ∧
      Carries tail b'.impl d rest := by
  induction lens generalizing b c body with
  | nil => exact ⟨[], b, c, body, rfl, rfl, carries⟩
  | cons len lens ih =>
    obtain ⟨first, b₁, c₁, rest, read, split, fresh₁, carries₁, -⟩ :=
      BodyReader.read_spec carries fresh len.pos
    obtain ⟨more, b₂, c₂, rest', reads, split', carries₂⟩ := ih carries₁ fresh₁
    refine ⟨first ++ more, b₂, c₂, rest', ?_, by rw [split, split', List.append_assoc], carries₂⟩
    simp only [readBody, read, reads, bind, Except.bind]

namespace HttpServer
variable (server : HttpServer) {c : Source} {tail : Bytes}

/-- Every handler returns and its response ends, then or later. -/
def HandlersEnd : Prop :=
  ∀ k method path handler, (server.route k method path).handler = some handler →
    handler.throws = false ∧ handler.response = .ended

theorem answer_spec (ends : server.HandlersEnd) (r : Request server.registry)
    (carries : Carries tail b.impl c body) (fresh : b.draining = false) : ∃ reply seen b' d rest,
      server.answer .ended k r.message b c = .ok (reply, .ended, seen, b', d) ∧
      body = seen ++ rest ∧ Carries tail b'.impl d rest := by
  have known : ¬ r.message.method = .invalid := r.registered
  simp only [answer, if_neg known, r.no_expect]
  split
  · rename_i handler _ routed
    obtain ⟨seen, b', d, rest, read, split, carries'⟩ := readBody_spec handler.reads carries fresh
    refine ⟨.handler false, seen, b', d, rest, ?_, split, carries'⟩
    obtain ⟨returned, ended⟩ := ends _ _ _ _ routed
    simp [read, returned, ended]
  · split
    · exact ⟨_, [], b, c, body, rfl, rfl, carries⟩
    · exact ⟨_, [], b, c, body, rfl, rfl, carries⟩
  · exact ⟨_, [], b, c, body, rfl, rfl, carries⟩

theorem drainBody_spec (carries : Carries tail b.impl c body) :
    ∃ d, drainBody b c = .ok d ∧ d.Valid ∧ d.unread = tail := by
  by_cases complete : b.isComplete
  · exact ⟨c, by simp [drainBody, complete], (carries.isComplete complete).2⟩
  · obtain ⟨b', d, drained, valid, rest⟩ := BodyReader.drain_spec carries
    refine ⟨d, ?_, valid, rest⟩
    simp [drainBody, complete, drained, bind, Except.bind]

theorem round_request (ended : previous done = .ended) (ends : server.HandlersEnd)
    (r : Request server.registry) (moderate : r.framing.Moderate) (valid : c.Valid)
    (whole : c.unread = r.encode ++ tail) :
    ∃ e d, server.round (done, c) = .inl (done ++ [e], d) ∧ d.Valid ∧ d.unread = tail ∧
      e.response = .ended ∧ e.message = r.message ∧ e.start = r.encode ++ tail ∧
      e.seen <+: r.framing.body := by
  obtain ⟨c₁, parsed, valid₁, whole₁⟩ := r.parseNext valid whole
  obtain ⟨reply, seen, b, c₂, rest, answered, split, carries⟩ :=
    server.answer_spec (k := done.length) ends r (r.carries moderate valid₁ whole₁) rfl
  obtain ⟨d, drained, valid₂, whole₂⟩ := drainBody_spec carries
  refine ⟨⟨c.unread, r.message, seen, reply, .ended⟩, d, ?_, valid₂, whole₂, rfl, rfl, whole,
    ⟨rest, split.symm⟩⟩
  have kept : r.message.keepAlive = true := rfl
  simp [round, parsed, handle, r.not_upgrade, ended, answered, drained, kept]

inductive Serves : List (Request server.registry) → List Exchange → Prop where
  | nil : Serves [] []
  | cons : e.message = r.message → e.start = (r :: requests).flatMap encode →
      e.seen <+: r.framing.body → Serves requests exchanges → Serves (r :: requests) (e :: exchanges)

theorem run_requests (ended : previous done = .ended) (ends : server.HandlersEnd)
    (requests : List (Request server.registry))
    (moderate : ∀ r ∈ requests, r.framing.Moderate) (valid : c.Valid)
    (whole : c.unread = requests.flatMap encode) :
    ∃ exchanges, Loop.run server.round_decreases (done, c) =
        (done ++ exchanges, .badRequest .connectionClosed
          (ascii "Connection closed before headers complete")) ∧
      server.Serves requests exchanges := by
  induction requests generalizing done c with
  | nil =>
    obtain ⟨d, closed⟩ := (requestHead server.registry).parseNext_closed valid whole rfl
    refine ⟨[], ?_, .nil⟩
    rw [Loop.run_inr server.round_decreases]
    simp [round, closed, HeadReader.failure, ended, awaitPrev]
  | cons r requests ih =>
    obtain ⟨e, d, took, valid', rest, response, message, start, seen⟩ :=
      server.round_request ended ends r (moderate r List.mem_cons_self) valid whole
    have ended' : previous (done ++ [e]) = .ended := by simp [previous, response]
    obtain ⟨exchanges, ran, serves⟩ :=
      ih ended' (fun r mem => moderate r (List.mem_cons_of_mem _ mem)) valid' rest
    refine ⟨e :: exchanges, ?_, .cons message start seen serves⟩
    rw [Loop.run_inl server.round_decreases took, ran, List.append_assoc]
    rfl

variable {server} {requests : List (Request server.registry)} {exchanges : List Exchange}

theorem Serves.map_message (serves : server.Serves requests exchanges) :
    exchanges.map Exchange.message = requests.map message := by
  induction serves with
  | nil => rfl
  | cons message _ _ _ ih => rw [List.map_cons, List.map_cons, message, ih]

theorem Serves.getElem (serves : server.Serves requests exchanges) (sent : requests[k]? = some r) :
    ∃ e, exchanges[k]? = some e ∧ e.start = (requests.drop k).flatMap encode ∧
      e.seen <+: r.framing.body := by
  induction serves generalizing k with
  | nil => cases sent
  | cons _ start seen _ ih =>
    cases k with
    | zero =>
      cases sent
      exact ⟨_, rfl, start, seen⟩
    | succ k => exact ih sent

/-- However the bytes of pipelined requests arrive and whatever their handlers read, the
connection parses exactly these requests in order; the parsing of each starts at its first
byte, and its handler sees the beginning of its own body. -/
theorem handleConnection_pipelined (server : HttpServer) (ends : server.HandlersEnd)
    (requests : List (Request server.registry)) (moderate : ∀ r ∈ requests, r.framing.Moderate)
    (chops : List Nat) : ∃ exchanges, server.handleConnection
        { stream := { rest := requests.flatMap encode, chops } } =
        (exchanges, .badRequest .connectionClosed
          (ascii "Connection closed before headers complete")) ∧
      exchanges.map Exchange.message = requests.map message ∧
      ∀ k r, requests[k]? = some r →
        ∃ e, exchanges[k]? = some e ∧ e.start = (requests.drop k).flatMap encode ∧
          e.seen <+: r.framing.body := by
  obtain ⟨exchanges, ran, serves⟩ := server.run_requests (rfl : previous [] = .ended) ends
    requests moderate (c := { stream := { rest := requests.flatMap encode, chops } })
    ⟨Nat.le_refl _, Nat.le_refl _⟩ rfl
  exact ⟨exchanges, ran, serves.map_message, fun k r sent => serves.getElem sent⟩

def curt : HttpServer where
  registry := .registering []
  route _ _ _ := { reason := .ok, handler := some { reads := [3] } }

def hello : Chunk where
  sizeLine := ⟨ascii "5", ascii ";n=1", ⟨by decide, by decide +kernel⟩, by decide +kernel,
    by decide, by decide⟩
  data := ascii "hello"
  nonempty := by decide
  counted := by decide
  fits := by decide

def upload (n : Nat) : Request curt.registry where
  method := ascii "POST"
  rawPath := ascii "/a"
  query := some (ascii "x=1")
  fields := [⟨ascii "Transfer-Encoding", 1, ascii "chunked", 0, by decide, by decide, by decide⟩]
  framing := .chunked
    { chunks := [hello]
      last := .zero
      trailers := List.replicate n .tag
      zero := SizeLine.size_zero }
  token := by decide
  registered := by decide
  pathPlain := by decide
  queryPlain := by decide
  few := by decide
  short := by decide
  shortFields := by decide
  announced := ⟨by decide, _, rfl, by decide⟩
  persistent := by decide
  plain := by decide

theorem upload_moderate (few : n ≤ 128) : (upload n).framing.Moderate := by
  refine ⟨by simpa using few, ?_⟩
  intro trailer mem
  rw [List.eq_of_mem_replicate mem]
  decide

theorem handleConnection_pipelined_uploads : ∃ exchanges, curt.handleConnection
        { stream := { rest := [upload 128, upload 0].flatMap encode, chops := [1, 7] } } =
        (exchanges, .badRequest .connectionClosed
          (ascii "Connection closed before headers complete")) ∧
      exchanges.map Exchange.message = [upload 128, upload 0].map message := by
  have ends : curt.HandlersEnd := by
    rintro k method path handler ⟨⟩
    exact ⟨rfl, rfl⟩
  have moderate : ∀ r ∈ [upload 128, upload 0], r.framing.Moderate := by
    intro r mem
    obtain rfl | rfl : r = upload 128 ∨ r = upload 0 := by simpa using mem
    · exact upload_moderate (by decide)
    · exact upload_moderate (by decide)
  obtain ⟨exchanges, ran, messages, -⟩ :=
    handleConnection_pipelined curt ends [upload 128, upload 0] moderate [1, 7]
  exact ⟨exchanges, ran, messages⟩

/-- One trailer line more, and the connection is lost with the request that follows. -/
theorem handleConnection_too_many_trailers :
    let ended := curt.handleConnection
      { stream := { rest := [upload 129, upload 0].flatMap encode } }
    ended.2 = .threw (.runtimeError "Invalid chunked encoding: too many trailer headers") ∧
      ended.1.map Exchange.message ≠ [upload 129, upload 0].map message := by
  decide +kernel

/-- The first handler drops its response, and the second request has no route. -/
def forgetful : HttpServer where
  registry := curt.registry
  route
    | 0, _, _ => { reason := .ok, handler := some { response := .dropped } }
    | _, _, _ => { reason := .notFound }

example : (forgetful.handleConnection
    { stream := { rest := [upload 0, upload 0, upload 0].flatMap encode } }).2
      = .brokenPromise := by
  decide +kernel

end HttpServer
end Nitrocoro.Http
