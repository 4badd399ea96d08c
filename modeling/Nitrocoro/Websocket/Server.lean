import Nitrocoro.Http.Outgoing
import Nitrocoro.Http.ReadAhead
import Nitrocoro.Http.Server
import Nitrocoro.Websocket.Connection

/-! `WsServer`: the upgrade of an HTTP connection. The handler gets a `WsConnection` over the
stream, whatever the HTTP side has in its buffer. -/
namespace Nitrocoro.Websocket
open Text Io Http

/-- A server with handlers of type `H`; `computeAccept` stands for the digest of a key. -/
structure WsServer (H : Type) where
  routes : List (Bytes × H) := []
  computeAccept : Bytes → Bytes

/-- What an accepted upgrade comes to: the calls that make up the response, and the handler with
the connection that it is called with. -/
structure Upgrade (H : Type) where
  response : List Call
  handler : H
  conn : WsConnection

namespace WsServer
variable {H : Type}

def route (path : Bytes) (handler : H) (ws : WsServer H) : WsServer H :=
  { ws with routes := OrderedMap.insertOrAssign path handler ws.routes }

def handleUpgrade (ws : WsServer H) (req : HttpRequest) (stream : Stream) : Option (Upgrade H) :=
  if toLower (req.headers.value .Upgrade) ≠ ascii "websocket" then none
  else match ws.routes.lookup req.path with
    | none => none
    | some handler =>
      let key := req.headers.value .SecWebSocketKey
      if key = [] then none
      else some
        { response := [.setStatus 101 [], .setHeaderCode .Upgrade (ascii "websocket"),
            .setHeaderCode .Connection (ascii "Upgrade"),
            .setHeaderCode .SecWebSocketAccept (ws.computeAccept key)]
          handler
          conn := { stream } }

/-- Which requests are taken does not depend on the stream. -/
def attachTo (ws : WsServer H) (server : HttpServer) : HttpServer :=
  { server with requestUpgrader := some fun _ req => (ws.handleUpgrade req {}).isSome }

/-- The way through `handleConnection` to an upgrade: the request and what is left when it was
parsed, and the upgrade with the stream. -/
def upgrade (ws : WsServer H) (server : HttpServer) (c : Source) :
    Option (HttpRequest × Source × Upgrade H) :=
  match (requestHead server.registry).parseNext c with
  | .error _ => none
  | .ok (parsed, d) =>
    if parsed.errorCode = .none ∧ isUpgradeRequest parsed.message then
      (ws.handleUpgrade parsed.message d.stream).map fun up => (parsed.message, d, up)
    else none

theorem handleUpgrade_some {ws : WsServer H} (taken : ws.handleUpgrade req stream = some up) :
    up.conn = { stream } ∧ ∀ stream', (ws.handleUpgrade req stream').isSome := by
  unfold handleUpgrade at taken ⊢
  split at taken
  · cases taken
  rename_i other
  split at taken
  · cases taken
  dsimp only at taken
  split at taken
  · cases taken
  rename_i key
  cases taken
  refine ⟨rfl, fun stream' => ?_⟩
  rw [if_neg other]
  rw [if_neg key]
  rfl

theorem upgrade_eq_some {ws : WsServer H} {server : HttpServer} {c d : Source}
    (accepted : ws.upgrade server c = some (req, d, up)) :
    ∃ parsed, (requestHead server.registry).parseNext c = .ok (parsed, d) ∧
      parsed.errorCode = .none ∧ parsed.message = req ∧ isUpgradeRequest req ∧
      ws.handleUpgrade req d.stream = some up := by
  unfold upgrade at accepted
  split at accepted
  · cases accepted
  rename_i parsed e read
  split at accepted
  · rename_i upgrades
    obtain ⟨up', taken, same⟩ := Option.map_eq_some_iff.mp accepted
    cases same
    exact ⟨parsed, read, upgrades.1, rfl, upgrades.2, taken⟩
  · cases accepted

/-- A round of `handleConnection` on a server with the WebSocket server attached ends in every
upgrade that is accepted. -/
theorem round_upgrade {ws : WsServer H} {server : HttpServer} {c d : Source}
    (accepted : ws.upgrade server c = some (req, d, up)) (done : List Exchange) :
    (ws.attachTo server).round (done, c) =
      .inr (done ++ [⟨c.unread, req, [], .upgraded, .ended⟩], .upgraded) := by
  obtain ⟨parsed, read, fine, rfl, upgrades, taken⟩ := upgrade_eq_some accepted
  have takes := (handleUpgrade_some taken).2 {}
  simp [HttpServer.round, read, fine, HttpServer.handle, attachTo, upgrades, takes]

/-- The connection that the handler gets receives the bytes behind the header block of the
upgrade request if and only if one of the reads of 4096 bytes ends with the block. -/
theorem connection_receives_iff (ws : WsServer H) (server : HttpServer) (c : Source)
    (valid : c.Valid) (accepted : ws.upgrade server c = some (req, d, up)) :
    ∃ head following, c.unread = head ++ following ∧ IsHeaderBlock head ∧
      (up.conn.stream.rest = following ↔
        ∃ k, c.view.length + (c.stream.received 4096 k).length = head.length) := by
  obtain ⟨parsed, read, fine, -, -, taken⟩ := upgrade_eq_some accepted
  obtain ⟨head, k, block, stream, bytes, needed⟩ := parseNext_reads valid read fine
  have same : up.conn.stream = d.stream := by rw [(handleUpgrade_some taken).1]
  have whole : c.unread = head ++ (d.view ++ d.stream.rest) := by
    rw [← List.append_assoc, ← bytes, stream, List.append_assoc, Stream.received_append]
    rfl
  have lengths := congrArg List.length bytes
  simp only [List.length_append] at lengths
  refine ⟨head, d.view ++ d.stream.rest, whole, block, ?_⟩
  rw [same]
  constructor
  · intro all
    have empty : d.view = [] := List.self_eq_append_left.mp all
    rw [empty] at lengths
    exact ⟨k, lengths⟩
  rintro ⟨j, ends⟩
  have reached : k ≤ j := by
    by_contra early
    exact absurd ends (Nat.ne_of_lt (needed j (Nat.lt_of_not_le early)))
  obtain ⟨more, rfl⟩ := Nat.exists_eq_add_of_le reached
  rw [Stream.received_add, List.length_append] at ends
  have empty : d.view = [] := List.length_eq_zero_iff.mp (by omega)
  rw [empty, List.nil_append]

def handshake : Bytes :=
  HeadReader.encodeLines ((["GET /chat HTTP/1.1", "Connection: Upgrade", "Upgrade: websocket",
    "Sec-WebSocket-Key: k", ""]).map ascii)

def chat : WsServer Unit where
  routes := [(ascii "/chat", ())]
  computeAccept key := key

def plain : HttpServer where
  registry := .registering []
  route _ _ _ := { reason := .notFound }

theorem exists_upgrade (c : Source) (P : HttpRequest × Source × Upgrade Unit → Bool)
    (runs : (chat.upgrade plain c).any P) :
    ∃ req d up, chat.upgrade plain c = some (req, d, up) ∧ P (req, d, up) := by
  cases accepted : chat.upgrade plain c with
  | none => simp [accepted] at runs
  | some result =>
    rw [accepted] at runs
    exact ⟨result.1, result.2.1, result.2.2, rfl, runs⟩

/-- The first frame comes in a read of its own. -/
theorem connection_receives_iff_sample :
    let c : Source := { stream := { rest := handshake ++ [0x81, 0x00], chops := [handshake.length] } }
    ∃ req d up, chat.upgrade plain c = some (req, d, up) ∧
      ∃ head following, c.unread = head ++ following ∧ IsHeaderBlock head ∧
        (up.conn.stream.rest = following ↔
          ∃ k, c.view.length + (c.stream.received 4096 k).length = head.length) := by
  intro c
  obtain ⟨req, d, up, accepted, -⟩ := exists_upgrade c (fun _ => true) (by decide +kernel)
  have fresh : c.Valid := ⟨Nat.zero_le _, Nat.zero_le _⟩
  exact ⟨req, d, up, accepted, connection_receives_iff chat plain c fresh accepted⟩

/-- The first frame comes along with the request, and the handler never sees it. -/
theorem frame_lost :
    let c : Source := { stream := { rest := handshake ++ [0x81, 0x00] } }
    IsHeaderBlock handshake ∧
      ∃ req d up, chat.upgrade plain c = some (req, d, up) ∧ up.conn.stream.rest = [] := by
  intro c
  constructor
  · refine ⟨(["GET /chat HTTP/1.1", "Connection: Upgrade", "Upgrade: websocket",
      "Sec-WebSocket-Key: k"]).map ascii, rfl, ?_⟩
    decide +kernel
  · obtain ⟨req, d, up, accepted, lost⟩ :=
      exists_upgrade c (fun r => r.2.2.conn.stream.rest = []) (by decide +kernel)
    exact ⟨req, d, up, accepted, by simpa using lost⟩

end WsServer

end Nitrocoro.Websocket
