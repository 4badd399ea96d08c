import Nitrocoro.Http.Message
import Nitrocoro.Utils.UrlEncode

/-! `HttpParser`: a message head, line by line. -/
namespace Nitrocoro.Http
open Text Utils

inductive HttpParseError where
  | none
  | connectionClosed
  | malformedRequestLine
  | ambiguousContentLength
  | unsupportedTransferEncoding
  deriving DecidableEq

inductive HttpParserState where
  | expectStatusLine
  | expectHeader
  | headerComplete
  | error
  deriving DecidableEq

structure HttpParseResult (M : Type) where
  message : M
  errorCode : HttpParseError := .none
  errorMessage : Bytes := []
  deriving DecidableEq

structure HttpParser (M : Type) where
  data : M
  state : HttpParserState := .expectStatusLine
  errorCode : HttpParseError := .none
  errorMessage : Bytes := []
  deriving DecidableEq

def HttpParser.setError {M : Type} (p : HttpParser M) (code : HttpParseError) (message : Bytes) :
    HttpParser M :=
  { p with errorCode := code, errorMessage := message, state := .error }

def HttpParser.extractResult {M : Type} (p : HttpParser M) : HttpParseResult M where
  message := p.data
  errorCode := p.errorCode
  errorMessage := p.errorMessage

def separators : Bytes := ascii "()<>@,;:\\\"/[]?=\x7b\x7d"

def isValidToken (s : Bytes) : Bool :=
  s ≠ [] && s.all fun c => 32 < c && c < 127 && c ∉ separators

theorem token_nonempty (token : isValidToken name) : name ≠ [] := by
  simp only [isValidToken, Bool.and_eq_true, decide_eq_true_eq] at token
  exact token.1

def parseHttpVersion (s : Bytes) : Version :=
  if s = ascii "HTTP/1.0" then .http10
  else if s = ascii "HTTP/1.1" then .http11
  else .unknown

structure HeaderLine where
  name : Bytes := []
  value : Bytes := []
  deriving DecidableEq

def substrOrThrow (s : Bytes) (pos : Nat) (count : Option Nat) : Except Exn Bytes :=
  match substr s pos count with
  | some t => .ok t
  | none => .error .outOfRange

/-- The value of a header line with the colon at `colonPos`. -/
def headerValue (line : Bytes) (colonPos : Nat) : Except Exn Bytes :=
  match firstNotOf 32 line (colonPos + 1) with
  | none => .ok []
  | some valueStart => substrOrThrow line valueStart (span valueStart (lastNotOf 32 line))

def parseHeaderLine (line : Bytes) : Except Exn HeaderLine :=
  match findChar 58 line with
  | none => .ok {}
  | some colonPos =>
    -- `find_last_not_of(' ', colonPos - 1)` looks at the whole line when the colon comes first
    let nameEnd := if colonPos = 0 then lastNotOf 32 line else lastNotOf 32 (line.take colonPos)
    match firstNotOf 32 line 0 with
    | none => .ok {}
    | some nameStart => do
      let name ← substrOrThrow line nameStart (span nameStart nameEnd)
      let value ← headerValue line colonPos
      .ok { name, value }

/-- What the framing headers of a message ask for; `none` without any. -/
def contentLengthFraming (headers : HttpHeaderMap) :
    Except (HttpParseError × Bytes) (Option (TransferMode × Nat)) :=
  match headers.lookup NameCode.ContentLength.codeToName with
  | none => .ok none
  | some header =>
    if header.value = [] ∨ header.value.head? = some 45 then
      .error (.ambiguousContentLength, ascii "Invalid content length")
    else match Numeral.stoul 10 header.value with
      | .error _ => .error (.ambiguousContentLength, ascii "Invalid content length")
      | .ok n => .ok (some (.contentLength, n))

/-- The part of `processTransferMode` that requests and responses share. -/
def messageFraming (headers : HttpHeaderMap) :
    Except (HttpParseError × Bytes) (Option (TransferMode × Nat)) :=
  match headers.lookup NameCode.TransferEncoding.codeToName with
  | none => contentLengthFraming headers
  | some header =>
    if (find (ascii "chunked") header.value).isSome then .ok (some (.chunked, 0))
    else if header.value ≠ ascii "identity" then
      .error (.unsupportedTransferEncoding, ascii "Unsupported Transfer-Encoding: " ++ header.value)
    else contentLengthFraming headers

namespace RequestParser

def parseQueryString (queryStr : Bytes) (queries : List (Bytes × Bytes)) : List (Bytes × Bytes) :=
  (pieces 38 queryStr).foldl (fun queries pair =>
    match findChar 61 pair with
    | none => queries
    | some eqPos =>
      OrderedMap.emplace (urlDecodeComponent (pair.take eqPos))
        (urlDecodeComponent (pair.drop (eqPos + 1))) queries) queries

def parseCookies (cookieHeader : Bytes) (cookies : List (Bytes × Bytes)) : List (Bytes × Bytes) :=
  (pieces 59 cookieHeader).foldl (fun cookies pair =>
    match findChar 61 pair with
    | none => cookies
    | some eqPos =>
      let name := trim 32 (pair.take eqPos)
      let value := trim 32 (pair.drop (eqPos + 1))
      if name = [] then cookies else OrderedMap.insertOrAssign name value cookies) cookies

def parseTarget (fullPath : Bytes) (data : HttpRequest) : HttpRequest :=
  let qPos := findChar 63 fullPath
  let rawPath := match qPos with
    | some qPos => fullPath.take qPos
    | none => fullPath
  let data := { data with rawPath, path := if rawPath = [] then ascii "/" else urlDecode rawPath }
  match qPos with
  | some qPos =>
    let query := fullPath.drop (qPos + 1)
    { data with query, queries := parseQueryString query data.queries }
  | none => { data with query := [] }

def parseRequestLine (reg : MethodRegistry) (p : HttpParser HttpRequest) (line : Bytes) :
    HttpParser HttpRequest :=
  match findChar 32 line with
  | none => p.setError .malformedRequestLine (ascii "Missing space in request line")
  | some pos1 =>
    match findChar 32 (line.drop (pos1 + 1)) with
    | none => p.setError .malformedRequestLine (ascii "Missing second space in request line")
    | some len =>
      let method := reg.fromString (line.take pos1)
      let version := parseHttpVersion (line.drop (pos1 + 1 + len + 1))
      let p := { p with data := { p.data with method, version } }
      if method = .invalid then p.setError .malformedRequestLine (ascii "Invalid http method")
      else if version = .unknown then
        p.setError .malformedRequestLine (ascii "Invalid http version")
      else { p with
        data := parseTarget ((line.drop (pos1 + 1)).take len) p.data
        state := .expectHeader }

/-- `parseHeader` once the line is cut. -/
def addHeader (p : HttpParser HttpRequest) (line : HeaderLine) : HttpParser HttpRequest :=
  if line.name = [] ∨ ¬ isValidToken line.name then p
  else
    let header := HttpHeader.ofName line.name line.value
    if header.nameCode = .Cookie then
      { p with data := { p.data with cookies := parseCookies line.value p.data.cookies } }
    else
      match p.data.headers.lookup header.name with
      | none =>
        { p with data := { p.data with
            headers := OrderedMap.emplace header.name header p.data.headers } }
      | some present =>
        if header.nameCode = .ContentLength ∧ line.value ≠ present.value then
          p.setError .ambiguousContentLength (ascii "Multiple Content-Length headers")
        else p

def processKeepAlive (data : HttpRequest) : HttpRequest :=
  { data with keepAlive :=
      match data.headers.lookup NameCode.Connection.codeToName with
      | some header => toLower header.value = ascii "keep-alive"
      | none => data.version = .http11 }

/-- `processTransferMode` and, unless that fails, `processKeepAlive`. -/
def processHeaders (p : HttpParser HttpRequest) : HttpParser HttpRequest :=
  match messageFraming p.data.headers with
  | .error (code, message) => p.setError code message
  | .ok mode =>
    -- a request without framing headers has no body
    let (transferMode, contentLength) := mode.getD (.contentLength, 0)
    { p with
      data := processKeepAlive { p.data with transferMode, contentLength }
      state := .headerComplete }

def parseLine (reg : MethodRegistry) (p : HttpParser HttpRequest) (line : Bytes) :
    Except Exn (HttpParser HttpRequest) :=
  if p.state = .expectStatusLine then .ok (parseRequestLine reg p line)
  else if line ≠ [] then do
    let line ← parseHeaderLine line
    .ok (addHeader p line)
  else .ok (processHeaders p)

theorem parseLine_blank (started : p.state = .expectHeader) :
    parseLine reg p [] = .ok (processHeaders p) := by
  simp [parseLine, started]

theorem parseLine_header (started : p.state = .expectHeader) (some : line ≠ [])
    (cut : parseHeaderLine line = .ok header) : parseLine reg p line = .ok (addHeader p header) := by
  simp [parseLine, started, some, cut, bind, Except.bind]

theorem parseLine_nil (parsed : parseLine reg p [] = .ok q) :
    q.state = .error ∨ q.state = .headerComplete := by
  simp only [parseLine] at parsed
  split at parsed
  · cases parsed
    exact .inl rfl
  cases parsed
  simp only [processHeaders]
  split
  · exact .inl rfl
  · exact .inr rfl

end RequestParser

namespace ResponseParser

def parseCookies (cookieHeader : Bytes) (cookies : List Cookie) : List Cookie :=
  let cookie := Cookie.fromString cookieHeader
  if cookie.name = [] then cookies else cookies ++ [cookie]

def addHeader (p : HttpParser HttpResponse) (line : HeaderLine) : HttpParser HttpResponse :=
  if line.name = [] ∨ ¬ isValidToken line.name then p
  else
    let header := HttpHeader.ofName line.name line.value
    if header.nameCode = .SetCookie then
      { p with data := { p.data with cookies := parseCookies line.value p.data.cookies } }
    else
      { p with data := { p.data with
          headers := OrderedMap.emplace header.name header p.data.headers } }

/-- The status code and the reason of a status line, after the version and its space. -/
def parseStatus (p : HttpParser HttpResponse) (rest : Bytes) : HttpParser HttpResponse :=
  let (codeStr, reason) := match findChar 32 rest with
    | none => (rest, [])
    | some sp2 => (rest.take sp2, rest.drop (sp2 + 1))
  match Numeral.stoi codeStr with
  | .error _ => p.setError .malformedRequestLine (ascii "Invalid status code")
  | .ok code =>
    -- the cast to `uint16_t`
    let statusCode := (code % 2 ^ 16).toNat
    let p := { p with data := { p.data with statusCode } }
    if statusCode < 100 ∨ 999 < statusCode then
      p.setError .malformedRequestLine (ascii "Invalid status code")
    else { p with data := { p.data with statusReason := reason }, state := .expectHeader }

def parseStatusLine (p : HttpParser HttpResponse) (line : Bytes) : HttpParser HttpResponse :=
  match findChar 32 line with
  | none => p.setError .malformedRequestLine (ascii "Invalid status line")
  | some sp1 =>
    let version := parseHttpVersion (line.take sp1)
    let p := { p with data := { p.data with version } }
    if version = .unknown then p.setError .malformedRequestLine (ascii "Invalid HTTP version")
    else parseStatus p (line.drop (sp1 + 1))

def processConnectionClose (data : HttpResponse) : HttpResponse :=
  { data with shouldClose :=
      match data.headers.lookup NameCode.Connection.codeToName with
      | some header => toLower header.value = ascii "close"
      | none => data.version = .http10 }

/-- `processTransferMode` and, unless that fails, `processConnectionClose`. -/
def processHeaders (p : HttpParser HttpResponse) : HttpParser HttpResponse :=
  match messageFraming p.data.headers with
  | .error (code, message) => p.setError code message
  | .ok mode =>
    -- a response without framing headers lasts until the connection closes
    let (transferMode, contentLength) := mode.getD (.untilClose, 0)
    { p with
      data := processConnectionClose { p.data with transferMode, contentLength }
      state := .headerComplete }

def parseLine (p : HttpParser HttpResponse) (line : Bytes) :
    Except Exn (HttpParser HttpResponse) :=
  if p.state = .expectStatusLine then .ok (parseStatusLine p line)
  else if line ≠ [] then do
    let line ← parseHeaderLine line
    .ok (addHeader p line)
  else .ok (processHeaders p)

theorem parseLine_blank (started : p.state = .expectHeader) :
    parseLine p [] = .ok (processHeaders p) := by
  simp [parseLine, started]

theorem parseLine_header (started : p.state = .expectHeader) (some : line ≠ [])
    (cut : parseHeaderLine line = .ok header) : parseLine p line = .ok (addHeader p header) := by
  simp [parseLine, started, some, cut, bind, Except.bind]

end ResponseParser
end Nitrocoro.Http
