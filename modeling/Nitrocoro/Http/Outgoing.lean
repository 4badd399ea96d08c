import Nitrocoro.Http.Message
import Nitrocoro.Http.Source

/-! `HttpOutgoingStreamBase`, the template behind the outgoing requests and responses, and the body
writers. A call changes the stream's own state and then goes through its suspension points in order:
the future of the previous response, the writes to the stream and the promise it fulfils at its
end. -/
namespace Nitrocoro.Http
open Text

inductive Event where
  | awaitPrev
  | send (bytes : Bytes)
  | finish
  deriving DecidableEq

/-- What a call reads from outside: the text that `strftime` makes of the current time, and the
bytes of the stack behind `sizeBuf`. -/
structure Env where
  date : Bytes := []
  behind : Bytes := []

inductive BodyWriter where
  | contentLength
  | untilClose
  | chunked
  deriving DecidableEq

namespace BodyWriter

def create : TransferMode → BodyWriter
  | .contentLength => .contentLength
  | .untilClose => .untilClose
  | .chunked => .chunked

/-- The `sizeLen` bytes that are appended from `sizeBuf`: 15 characters of the text that
`snprintf` cuts off there, the terminator, and then what lies behind. -/
def sizeText (env : Env) (size : Nat) : Bytes :=
  let text := Numeral.print 16 size ++ crlf
  if text.length < 16 then text else (text.take 15 ++ 0 :: env.behind).take text.length

def write (env : Env) (data : Bytes) : BodyWriter → List Event
  | .chunked => if data = [] then [] else [.send (sizeText env data.length ++ (data ++ crlf))]
  | _ => [.send data]

def finish : BodyWriter → List Event
  | .chunked => [.send (ascii "0" ++ crlf ++ crlf)]
  | _ => []

end BodyWriter

def versionString : Version → Bytes
  | .http10 => ascii "HTTP/1.0"
  | .http11 => ascii "HTTP/1.1"
  | .unknown => ascii "UNKNOWN"

def defaultReasons : List (Nat × String) :=
  [(100, "Continue"), (101, "Switching Protocols"), (102, "Processing"), (103, "Early Hints"),
    (200, "OK"), (201, "Created"), (202, "Accepted"), (203, "Non-Authoritative Information"),
    (204, "No Content"), (205, "Reset Content"), (206, "Partial Content"), (207, "Multi-Status"),
    (208, "Already Reported"), (226, "IM Used"), (300, "Multiple Choices"),
    (301, "Moved Permanently"), (302, "Found"), (303, "See Other"), (304, "Not Modified"),
    (305, "Use Proxy"), (307, "Temporary Redirect"), (308, "Permanent Redirect"),
    (400, "Bad Request"), (401, "Unauthorized"), (402, "Payment Required"), (403, "Forbidden"),
    (404, "Not Found"), (405, "Method Not Allowed"), (406, "Not Acceptable"),
    (407, "Proxy Authentication Required"), (408, "Request Timeout"), (409, "Conflict"),
    (410, "Gone"), (411, "Length Required"), (412, "Precondition Failed"),
    (413, "Request Entity Too Large"), (414, "Request-URI Too Large"),
    (415, "Unsupported Media Type"), (416, "Requested Range Not Satisfiable"),
    (417, "Expectation Failed"), (418, "I'm a teapot"), (421, "Misdirected Request"),
    (422, "Unprocessable Entity"), (423, "Locked"), (424, "Failed Dependency"),
    (425, "Too Early"), (426, "Upgrade Required"), (428, "Precondition Required"),
    (429, "Too Many Requests"), (431, "Request Header Fields Too Large"),
    (451, "Unavailable For Legal Reasons"), (500, "Internal Server Error"),
    (501, "Not Implemented"), (502, "Bad Gateway"), (503, "Service Unavailable"),
    (504, "Gateway Timeout"), (505, "HTTP Version Not Supported"),
    (506, "Variant Also Negotiates"), (507, "Insufficient Storage"), (508, "Loop Detected"),
    (510, "Not Extended"), (511, "Network Authentication Required")]

def getDefaultReason (code : Nat) : Bytes := ascii ((defaultReasons.lookup code).getD "")

def headerLine (name value : Bytes) : Bytes := name ++ (ascii ": " ++ (value ++ crlf))

/-- What the template knows of a `DataType`: its headers, whether the version needs a body that
ends with the connection, and the text in front of the empty line. -/
class MessageKind (M : Type) where
  headers : M → HttpHeaderMap
  setHeaders : HttpHeaderMap → M → M
  untilClose : M → Option M
  buildHeaders : Env → (sendDateHeader : Bool) → M → Bytes
  headers_setHeaders : ∀ map data, headers (setHeaders map data) = map
  headers_untilClose : ∀ data closing, untilClose data = some closing →
    headers closing = headers data

def MethodRegistry.toString (reg : MethodRegistry) (method : HttpMethod) : Bytes :=
  reg.names.getD method.id.toNat []

namespace HttpRequest

def requestLine (reg : MethodRegistry) (data : HttpRequest) : Bytes :=
  reg.toString data.method ++ (ascii " " ++ (data.path ++ (ascii " " ++ versionString data.version)))

def cookieLine (data : HttpRequest) : Bytes :=
  if data.cookies = [] then []
  else headerLine (ascii "Cookie") <|
    (ascii "; ").intercalate (data.cookies.map fun cookie => cookie.1 ++ (ascii "=" ++ cookie.2))

def buildHeaders (reg : MethodRegistry) (data : HttpRequest) : Bytes :=
  requestLine reg data ++ crlf ++
    data.headers.flatMap (fun entry => headerLine entry.2.name entry.2.value) ++ cookieLine data

/-- A request whose method is one of the registry. -/
def Of (_ : MethodRegistry) : Type := HttpRequest

instance kind (reg : MethodRegistry) : MessageKind (Of reg) where
  headers := headers
  setHeaders headers data := { data with headers }
  untilClose _ := none
  buildHeaders _ _ := buildHeaders reg
  headers_setHeaders _ _ := rfl
  headers_untilClose := nofun

end HttpRequest

namespace HttpResponse

def setStatus (code : Nat) (reason : Bytes) (data : HttpResponse) : HttpResponse :=
  { data with
    statusCode := code % 2 ^ 16
    statusReason := if reason = [] then getDefaultReason (code % 2 ^ 16) else reason }

def addCookie (cookie : Cookie) (data : HttpResponse) : HttpResponse :=
  { data with cookies := data.cookies ++ [cookie] }

def statusLine (data : HttpResponse) : Bytes :=
  versionString data.version ++ (ascii " " ++ (Numeral.print 10 data.statusCode ++ (ascii " " ++
    if data.statusReason = [] then getDefaultReason data.statusCode else data.statusReason)))

def dateLine (env : Env) (sendDateHeader : Bool) (data : HttpResponse) : Bytes :=
  if sendDateHeader ∧ data.headers.lookup NameCode.Date.codeToName = none then
    headerLine (ascii "Date") env.date
  else []

def connectionLine (data : HttpResponse) : Bytes :=
  if data.headers.lookup NameCode.Connection.codeToName = none then
    if data.shouldClose then headerLine (ascii "Connection") (ascii "close")
    else if data.version = .http10 then headerLine (ascii "Connection") (ascii "keep-alive")
    else []
  else []

def buildHeaders (env : Env) (sendDateHeader : Bool) (data : HttpResponse) : Bytes :=
  statusLine data ++ crlf ++
    data.headers.flatMap (fun entry => headerLine entry.2.name entry.2.value) ++
    data.cookies.flatMap (fun cookie => headerLine (ascii "Set-Cookie") cookie.toString) ++
    data.dateLine env sendDateHeader ++ data.connectionLine

instance kind : MessageKind HttpResponse where
  headers := headers
  setHeaders headers data := { data with headers }
  untilClose data := if data.version = .http10 then some { data with shouldClose := true } else none
  buildHeaders := buildHeaders
  headers_setHeaders _ _ := rfl
  headers_untilClose data closing closes := by
    split at closes
    · injection closes with closes
      rw [← closes]
    · contradiction

end HttpResponse

namespace HttpHeaderMap

def HasLength (headers : HttpHeaderMap) : Prop :=
  (headers.lookup NameCode.ContentLength.codeToName).isSome

/-- The test of `decideTransferMode` on a coding that the caller set. -/
def FindsChunked (headers : HttpHeaderMap) : Prop :=
  (headers.lookup NameCode.TransferEncoding.codeToName).any fun header =>
    (find (ascii "chunked") header.value).isSome

instance (headers : HttpHeaderMap) : Decidable (HasLength headers) :=
  inferInstanceAs (Decidable (_ = true))

instance (headers : HttpHeaderMap) : Decidable (FindsChunked headers) :=
  inferInstanceAs (Decidable (_ = true))

end HttpHeaderMap

/-- `HttpOutgoingStreamBase<DataType>`. -/
structure Outgoing (M : Type) where
  data : M
  headersSent : Bool := false
  transferMode : TransferMode := .chunked
  bodyWriter : Option BodyWriter := none
  ignoreBody : Bool := false
  sendDateHeader : Bool := true
  bodyLength : UInt64 := 0

/-- The calls on a message before the one that ends it. What only a request or only a response
can set is an `edit`: it leaves the headers alone. -/
inductive MessageCall (M : Type) [MessageKind M] where
  | setHeader (header : HttpHeader)
  | edit (change : M → M)
    (keeps : ∀ data, MessageKind.headers (change data) = MessageKind.headers data)
  | write (data : Bytes)

/-- The call that ends a message: `end()` or `end(data)`. -/
inductive Ending where
  | plain
  | data (data : Bytes)

inductive AnyCall (M : Type) [MessageKind M] where
  | early (call : MessageCall M)
  | ending (last : Ending)

namespace Outgoing
variable [MessageKind M]

abbrev headers (o : Outgoing M) : HttpHeaderMap := MessageKind.headers o.data

def setHeader (header : HttpHeader) (o : Outgoing M) : Outgoing M :=
  let headers := OrderedMap.insertOrAssign header.name header o.headers
  { o with data := MessageKind.setHeaders headers o.data }

def useWriter (mode : TransferMode) (o : Outgoing M) : Outgoing M :=
  { o with transferMode := mode, bodyWriter := some (.create mode) }

def counted (data : Bytes) (o : Outgoing M) : Outgoing M :=
  { o with bodyLength := o.bodyLength + .ofNat data.length }

/-- `decideTransferMode` where no length is set and none is hinted. -/
def chooseCoding (o : Outgoing M) : Outgoing M :=
  if o.headers.FindsChunked then o.useWriter .chunked
  else match MessageKind.untilClose o.data with
    | some closing => { o with data := closing }.useWriter .untilClose
    | none => (o.setHeader (.ofCode .TransferEncoding (ascii "chunked"))).useWriter .chunked

def setLength (n : Nat) (o : Outgoing M) : Outgoing M :=
  o.setHeader (.ofCode .ContentLength (Numeral.print 10 n))

def decideTransferMode (lengthHint : Option Nat) (o : Outgoing M) : Except Exn (Outgoing M) :=
  if o.bodyWriter.isSome then .ok o
  else match lengthHint with
    | some n => .ok ((o.setLength n).useWriter .contentLength)
    | none =>
      match o.headers.lookup NameCode.ContentLength.codeToName with
      | some header =>
        match Numeral.stoul 10 header.value with
        | .error e => .error (.ofNumeral e)
        | .ok _ => .ok (o.useWriter .contentLength)
      | none => .ok o.chooseCoding

def buildHeaders (env : Env) (o : Outgoing M) : Bytes :=
  MessageKind.buildHeaders env o.sendDateHeader o.data

def writeHeaders (env : Env) (o : Outgoing M) : Outgoing M × List Event :=
  if o.headersSent then (o, [])
  else ({ o with headersSent := true }, [.awaitPrev, .send (o.buildHeaders env ++ crlf)])

/-- `write`. What it throws comes before the first byte, but after the length was counted. -/
def write (env : Env) (data : Bytes) (o : Outgoing M) : Outgoing M × Except Exn (List Event) :=
  let o := o.counted data
  if o.ignoreBody then (o, .ok [])
  else match o.decideTransferMode none with
    | .error e => (o, .error e)
    | .ok o =>
      let (o, head) := o.writeHeaders env
      (o, .ok (head ++ o.bodyWriter.elim [] (·.write env data)))

/-- `end()`. -/
def finish (env : Env) (o : Outgoing M) : Outgoing M × List Event :=
  let o := if o.headersSent ∨ o.headers.HasLength then o else o.setLength o.bodyLength.toNat
  let (o, head) := o.writeHeaders env
  (o, head ++ o.bodyWriter.elim [] (·.finish) ++ [.finish])

/-- `end(data)` past its first two checks, with the writer chosen. -/
def finishBody (env : Env) (data : Bytes) (o : Outgoing M) : Outgoing M × List Event :=
  if o.headersSent = false ∧ o.transferMode = .contentLength ∧ data.length ≤ 32 * 1024 then
    ({ o with headersSent := true },
      [.awaitPrev, .send (o.buildHeaders env ++ (crlf ++ data)), .finish])
  else
    let (o, head) := o.writeHeaders env
    (o, head ++ o.bodyWriter.elim [] (fun w => w.write env data ++ w.finish) ++ [.finish])

/-- The writer that `end(data)` goes on with: the one that is there, or one for its length. -/
def hinted (n : Nat) (o : Outgoing M) : Outgoing M :=
  if o.bodyWriter.isSome then o else (o.setLength n).useWriter .contentLength

theorem decideTransferMode_hint (n : Nat) (o : Outgoing M) :
    o.decideTransferMode (some n) = .ok (o.hinted n) := by
  unfold decideTransferMode hinted
  split <;> rfl

/-- What choosing a writer leaves alone. -/
structure Choice (o o' : Outgoing M) : Prop where
  sent : o'.headersSent = o.headersSent
  ignores : o'.ignoreBody = o.ignoreBody

theorem choice_decideTransferMode {o o' : Outgoing M} {hint : Option Nat}
    (decided : o.decideTransferMode hint = .ok o') : Choice o o' := by
  simp only [decideTransferMode] at decided
  split at decided
  · cases decided
    exact ⟨rfl, rfl⟩
  split at decided
  · cases decided
    exact ⟨rfl, rfl⟩
  split at decided
  · split at decided
    · cases decided
    · cases decided
      exact ⟨rfl, rfl⟩
  cases decided
  rw [chooseCoding]
  split
  · exact ⟨rfl, rfl⟩
  · split
    · exact ⟨rfl, rfl⟩
    · exact ⟨rfl, rfl⟩

theorem choice_hinted (n : Nat) (o : Outgoing M) : Choice o (o.hinted n) :=
  choice_decideTransferMode (decideTransferMode_hint n o)

/-- `end(data)`. -/
def finishWith (env : Env) (data : Bytes) (o : Outgoing M) : Outgoing M × List Event :=
  let o := o.counted data
  if o.ignoreBody ∨ data = [] then o.finish env
  else (o.hinted data.length).finishBody env data

def call (env : Env) (o : Outgoing M) : MessageCall M → Outgoing M × Except Exn (List Event)
  | .setHeader header => (o.setHeader header, .ok [])
  | .edit change _ => ({ o with data := change o.data }, .ok [])
  | .write data => o.write env data

def ending (env : Env) (o : Outgoing M) : Ending → Outgoing M × List Event
  | .plain => o.finish env
  | .data data => o.finishWith env data

/-- The state after a call and the events it goes through. The state is the same when an event
throws: everything is set before the first suspension point. -/
def react (env : Env) (o : Outgoing M) : AnyCall M → Outgoing M × List Event
  | .early call =>
    let (o, done) := o.call env call
    (o, done.toOption.getD [])
  | .ending last => o.ending env last

/-- A caller that goes on after a call that throws. -/
def events (env : Env) : List (AnyCall M) → Outgoing M → List Event
  | [], _ => []
  | call :: run, o => (o.react env call).2 ++ events env run (o.react env call).1

/-- A caller that gives up with the first call that throws. -/
def respond (env : Env) (last : Ending) : List (MessageCall M) → Outgoing M → Except Exn (List Event)
  | [], o => .ok (o.ending env last).2
  | first :: calls, o => do
    let events ← (o.call env first).2
    let more ← respond env last calls (o.call env first).1
    .ok (events ++ more)

/-- The state that the header block is built from: the first in which the headers count as sent. -/
def headState (env : Env) : List (AnyCall M) → Outgoing M → Outgoing M
  | [], o => o
  | call :: run, o =>
    let o' := (o.react env call).1
    if o'.headersSent then o' else headState env run o'

end Outgoing

/-- The calls of a message that one `end` completes. -/
def script [MessageKind M] (calls : List (MessageCall M)) (last : Ending) : List (AnyCall M) :=
  calls.map .early ++ [.ending last]

/-- The calls a handler makes on a response before it ends it. -/
inductive Call where
  | setStatus (code : Nat) (reason : Bytes)
  | setHeader (name value : Bytes)
  | setHeaderCode (code : NameCode) (value : Bytes)
  | addCookie (cookie : Cookie)
  | setCloseConnection (shouldClose : Bool)
  | setVersion (version : Version)
  | write (data : Bytes)

def Call.message : Call → MessageCall HttpResponse
  | .setStatus code reason => .edit (.setStatus code reason) fun _ => rfl
  | .setHeader name value => .setHeader (.ofName name value)
  | .setHeaderCode code value => .setHeader (.ofCode code value)
  | .addCookie cookie => .edit (.addCookie cookie) fun _ => rfl
  | .setCloseConnection shouldClose => .edit (fun data => { data with shouldClose }) fun _ => rfl
  | .setVersion version => .edit (fun data => { data with version }) fun _ => rfl
  | .write data => .write data

/-- `HttpOutgoingStream<HttpResponse>`. -/
abbrev OutgoingResponse := Outgoing HttpResponse

namespace OutgoingResponse

/-- The constructor: nothing is set yet. -/
def create (ignoreBody sendDateHeader : Bool) : OutgoingResponse :=
  { data := {}, ignoreBody, sendDateHeader }

def call (env : Env) (o : OutgoingResponse) (call : Call) :
    OutgoingResponse × Except Exn (List Event) :=
  Outgoing.call env o call.message

def respond (env : Env) (last : Ending) (calls : List Call) (o : OutgoingResponse) :
    Except Exn (List Event) :=
  Outgoing.respond env last (calls.map Call.message) o

end OutgoingResponse

def wire (events : List Event) : Bytes :=
  events.flatMap fun
    | .send bytes => bytes
    | _ => []

theorem wire_append (a b : List Event) : wire (a ++ b) = wire a ++ wire b := List.flatMap_append

end Nitrocoro.Http
