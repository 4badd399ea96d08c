import Nitrocoro.Lib.Numeral
import Nitrocoro.Lib.OrderedMap

/-! Versions, methods and header fields. -/
namespace Nitrocoro.Http
open Text

/-- The exceptions that leave the functions of the library. -/
inductive Exn where
  | invalidArgument
  | outOfRange
  | runtimeError (what : String)
  deriving DecidableEq

def Exn.ofNumeral : Numeral.Error → Exn
  | .invalidArgument => .invalidArgument
  | .outOfRange => .outOfRange

theorem bind_eq_ok {ε α β : Type} {x : Except ε α} {f : α → Except ε β} {b : β} :
    (x >>= f) = .ok b ↔ ∃ a, x = .ok a ∧ f a = .ok b := by
  cases x with
  | error e => exact ⟨nofun, fun ⟨_, absurd, _⟩ => nomatch absurd⟩
  | ok a => exact ⟨fun done => ⟨a, rfl, done⟩, fun ⟨_, same, done⟩ => by cases same; exact done⟩

theorem bind_eq_error {ε α β : Type} {x : Except ε α} {f : α → Except ε β} {e : ε} :
    (x >>= f) = .error e ↔ x = .error e ∨ ∃ a, x = .ok a ∧ f a = .error e := by
  cases x with
  | error | ok => simp [bind, Except.bind]

inductive Version where
  | unknown
  | http10
  | http11
  deriving DecidableEq

inductive TransferMode where
  | contentLength
  | chunked
  | untilClose
  deriving DecidableEq

structure HttpMethod where
  id : UInt16
  deriving DecidableEq

namespace HttpMethod

def get : HttpMethod := ⟨0⟩
def head : HttpMethod := ⟨1⟩
def options : HttpMethod := ⟨5⟩
def invalid : HttpMethod := ⟨9⟩

def standardNames : List Bytes :=
  ["GET", "HEAD", "POST", "PUT", "DELETE", "OPTIONS", "PATCH", "TRACE", "CONNECT"].map ascii

end HttpMethod

structure MethodRegistry where
  names : List Bytes := []
  ids : List (Bytes × UInt16) := []

namespace MethodRegistry

def add (name : Bytes) (reg : MethodRegistry) : HttpMethod × MethodRegistry :=
  match reg.ids.lookup name with
  | some id => (⟨id⟩, reg)
  | none =>
    let id := reg.names.length.toUInt16
    (⟨id⟩, { names := reg.names ++ [name], ids := (name, id) :: reg.ids })

/-- The registry after the given `registerMethod` calls; the empty name is the slot of `_Invalid`. -/
def registering (customs : List Bytes) : MethodRegistry :=
  (HttpMethod.standardNames ++ [] :: customs).foldl (fun reg name => (reg.add name).2) {}

def fromString (reg : MethodRegistry) (s : Bytes) : HttpMethod :=
  match reg.ids.lookup s with
  | some id => ⟨id⟩
  | none => .invalid

end MethodRegistry

inductive NameCode where
  | CacheControl | Connection | Date | TransferEncoding | Upgrade
  | Accept | AcceptEncoding | AcceptLanguage | Authorization | Host
  | IfModifiedSince | IfNoneMatch | Referer | UserAgent | Expect
  | AcceptRanges | Age | ETag | Location | RetryAfter | Server | Vary | WwwAuthenticate
  | Allow | ContentEncoding | ContentLanguage | ContentLength | ContentRange | ContentType
  | Expires | LastModified
  | Cookie | SetCookie
  | AccessControlAllowOrigin | AccessControlAllowMethods | AccessControlAllowHeaders
  | AccessControlAllowCredentials | Origin
  | SecWebSocketKey | SecWebSocketAccept | SecWebSocketVersion | SecWebSocketProtocol
  | SecWebSocketExtensions
  | XForwardedFor | XForwardedProto | XRealIp
  | Unknown
  deriving DecidableEq

namespace NameCode

/-- The lower case names, in the order of the codes. -/
def table : List (NameCode × Bytes) :=
  [(CacheControl, "cache-control"), (Connection, "connection"), (Date, "date"),
    (TransferEncoding, "transfer-encoding"), (Upgrade, "upgrade"), (Accept, "accept"),
    (AcceptEncoding, "accept-encoding"), (AcceptLanguage, "accept-language"),
    (Authorization, "authorization"), (Host, "host"), (IfModifiedSince, "if-modified-since"),
    (IfNoneMatch, "if-none-match"), (Referer, "referer"), (UserAgent, "user-agent"),
    (Expect, "expect"), (AcceptRanges, "accept-ranges"), (Age, "age"), (ETag, "etag"),
    (Location, "location"), (RetryAfter, "retry-after"), (Server, "server"), (Vary, "vary"),
    (WwwAuthenticate, "www-authenticate"), (Allow, "allow"),
    (ContentEncoding, "content-encoding"), (ContentLanguage, "content-language"),
    (ContentLength, "content-length"), (ContentRange, "content-range"),
    (ContentType, "content-type"), (Expires, "expires"), (LastModified, "last-modified"),
    (Cookie, "cookie"), (SetCookie, "set-cookie"),
    (AccessControlAllowOrigin, "access-control-allow-origin"),
    (AccessControlAllowMethods, "access-control-allow-methods"),
    (AccessControlAllowHeaders, "access-control-allow-headers"),
    (AccessControlAllowCredentials, "access-control-allow-credentials"), (Origin, "origin"),
    (SecWebSocketKey, "sec-websocket-key"), (SecWebSocketAccept, "sec-websocket-accept"),
    (SecWebSocketVersion, "sec-websocket-version"),
    (SecWebSocketProtocol, "sec-websocket-protocol"),
    (SecWebSocketExtensions, "sec-websocket-extensions"), (XForwardedFor, "x-forwarded-for"),
    (XForwardedProto, "x-forwarded-proto"), (XRealIp, "x-real-ip")].map
      fun entry => (entry.1, ascii entry.2)

def codeToName (code : NameCode) : Bytes := (table.lookup code).getD []

def nameToCode (lowerName : Bytes) : NameCode :=
  ((table.find? fun entry => entry.2 = lowerName).map Prod.fst).getD .Unknown

/-- The codes and their names determine each other; the names are lower case letters and dashes. -/
theorem table_listed : ∀ entry ∈ table, codeToName entry.1 = entry.2 ∧
    nameToCode entry.2 = entry.1 ∧ entry.2 ≠ [] ∧
    entry.2.all fun c => c = 45 || (97 ≤ c && c ≤ 122) := by
  decide +kernel

theorem mem_table (known : code ≠ .Unknown) : (code, code.codeToName) ∈ table := by
  have found : ∃ name, table.lookup code = some name := by
    revert known
    cases code <;> first | exact fun _ => ⟨_, rfl⟩ | exact fun absurd => (absurd rfl).elim
  obtain ⟨name, hit⟩ := found
  obtain ⟨before, after, split, -⟩ := List.lookup_eq_some_iff.mp hit
  rw [codeToName, hit, split]
  simp

theorem nameToCode_eq_iff (known : code ≠ .Unknown) :
    nameToCode name = code ↔ name = code.codeToName := by
  constructor
  · intro named
    cases hit : table.find? fun entry => entry.2 = name with
    | none => exact absurd (by simp [← named, nameToCode, hit]) known
    | some entry =>
      have same : entry.2 = name := by simpa using List.find?_some hit
      have code : entry.1 = code := by simpa [nameToCode, hit] using named
      rw [← same, ← code, (table_listed entry (List.mem_of_find?_eq_some hit)).1]
  · rintro rfl
    exact (table_listed _ (mem_table known)).2.1

end NameCode

def tolower (c : UInt8) : UInt8 := if 65 ≤ c ∧ c ≤ 90 then c + 32 else c

def toLower (s : Bytes) : Bytes := s.map tolower

theorem toLower_toLower (s : Bytes) : toLower (toLower s) = toLower s := by
  have again : ∀ c, tolower (tolower c) = tolower c := forall_byte (by decide +kernel)
  simp [toLower, again]

theorem toLower_codeToName {code : NameCode} (known : code ≠ .Unknown) :
    toLower code.codeToName = code.codeToName := by
  have kept : ∀ c : UInt8, (c = 45 || (97 ≤ c && c ≤ 122)) → tolower c = c :=
    forall_byte (by decide +kernel)
  have letters := List.all_eq_true.mp (NameCode.table_listed _ (NameCode.mem_table known)).2.2.2
  exact (List.map_congr_left fun c mem => kept c (letters c mem)).trans (List.map_id _)

structure HttpHeader where
  name : Bytes
  value : Bytes
  nameCode : NameCode
  deriving DecidableEq

namespace HttpHeader

def ofName (name value : Bytes) : HttpHeader where
  name := toLower name
  value := value
  nameCode := .nameToCode (toLower name)

def ofCode (code : NameCode) (value : Bytes) : HttpHeader where
  name := code.codeToName
  value := value
  nameCode := code

theorem name_ofName (name value : Bytes) : (ofName name value).name = toLower name := rfl

theorem lower_ofCode (code : NameCode) (value : Bytes) :
    toLower (ofCode code value).name = (ofCode code value).name := by
  by_cases known : code = .Unknown
  · rw [known]
    rfl
  · exact toLower_codeToName known

theorem ofCode_eq_ofName (known : code ≠ .Unknown) (value : Bytes) :
    ofCode code value = ofName code.codeToName value := by
  simp only [ofCode, ofName, toLower_codeToName known, (NameCode.nameToCode_eq_iff known).mpr rfl]

end HttpHeader

abbrev HttpHeaderMap := List (Bytes × HttpHeader)

/-- `getHeader`: the value of a header, or the empty string. -/
def HttpHeaderMap.value (headers : HttpHeaderMap) (code : NameCode) : Bytes :=
  match headers.lookup code.codeToName with
  | some header => header.value
  | none => []

end Nitrocoro.Http
