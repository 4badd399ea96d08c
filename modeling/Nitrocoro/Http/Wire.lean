import Nitrocoro.Http.Parser
import Nitrocoro.Http.Source

/-! Well-formed messages and their bytes on the wire, independent of any parser. -/
namespace Nitrocoro.Http
open Text

structure Field where
  name : Bytes
  lead : Nat
  value : Bytes
  trail : Nat
  token : isValidToken name
  trimmed : Trimmed 32 value
  single : OneLine value

namespace Field

def raw (f : Field) : Bytes :=
  List.replicate f.lead 32 ++ (f.value ++ List.replicate f.trail 32)

def line (f : Field) : Bytes := f.name ++ 58 :: f.raw

def Is (code : NameCode) (f : Field) : Prop := toLower f.name = code.codeToName

instance (code : NameCode) (f : Field) : Decidable (f.Is code) := inferInstanceAs (Decidable (_ = _))

end Field

/-- The header map of a message, whose headers named by `special` are kept elsewhere: of several
headers with one name the first counts. -/
def collect (special : NameCode) (fields : List Field) (m : HttpHeaderMap) : HttpHeaderMap :=
  (fields.filter fun f => ¬ f.Is special).foldl
    (fun m f => OrderedMap.emplace (toLower f.name) (.ofName f.name f.value) m) m

structure SizeLine where
  digits : Bytes
  extension : Bytes
  hex : Numeral.Digits 16 digits
  opens : ∀ c ∈ extension.head?, c = 59 ∨ c = 32 ∨ c = 9
  single : OneLine (digits ++ extension)
  short : digits.length + extension.length ≤ 62

def SizeLine.line (l : SizeLine) : Bytes := l.digits ++ l.extension

def SizeLine.size (l : SizeLine) : Nat :=
  Numeral.value 16 (l.digits.filterMap (Numeral.digit 16))

theorem no_extension : ∀ c ∈ ([] : Bytes).head?, c = 59 ∨ c = 32 ∨ c = 9 := nofun

def SizeLine.zero : SizeLine :=
  ⟨ascii "0", [], ⟨by decide, by decide +kernel⟩, no_extension, by decide, by decide⟩

theorem SizeLine.size_zero : zero.size = 0 := by decide

structure Chunk where
  sizeLine : SizeLine
  data : Bytes
  nonempty : data ≠ []
  counted : sizeLine.size = data.length
  fits : data.length < 2 ^ 64

def Chunk.encode (chunk : Chunk) : Bytes :=
  chunk.sizeLine.line ++ (crlf ++ (chunk.data ++ crlf))

structure Trailer where
  line : Bytes
  nonempty : line ≠ []
  single : OneLine line
  short : line.length < 8192

structure ChunkedBody where
  chunks : List Chunk
  last : SizeLine
  trailers : List Trailer
  zero : last.size = 0

namespace ChunkedBody

def data (body : ChunkedBody) : Bytes := body.chunks.flatMap Chunk.data

structure Moderate (body : ChunkedBody) : Prop where
  few : body.trailers.length ≤ 128
  short : ∀ trailer ∈ body.trailers, trailer.line.length ≤ 8190

def encodeTrailers (trailers : List Trailer) : Bytes :=
  trailers.flatMap (fun trailer => trailer.line ++ crlf) ++ crlf

def encode (body : ChunkedBody) : Bytes :=
  body.chunks.flatMap Chunk.encode ++ (body.last.line ++ (crlf ++ encodeTrailers body.trailers))

end ChunkedBody

inductive Framing where
  | absent
  | contentLength (digits body : Bytes)
  | chunked (coding : ChunkedBody)

namespace Framing

def body : Framing → Bytes
  | absent => []
  | contentLength _ body => body
  | chunked coding => coding.data

def encode : Framing → Bytes
  | absent => []
  | contentLength _ body => body
  | chunked coding => coding.encode

def Moderate : Framing → Prop
  | chunked coding => coding.Moderate
  | _ => True

def mode : Framing → TransferMode
  | chunked _ => .chunked
  | _ => .contentLength

def length : Framing → Nat
  | contentLength _ body => body.length
  | _ => 0

def Announced (fields : List Field) : Framing → Prop
  | absent => ∀ f ∈ fields, ¬ f.Is .ContentLength ∧ ¬ f.Is .TransferEncoding
  | contentLength digits body =>
    Numeral.Digits 10 digits ∧ Numeral.value 10 (digits.filterMap (Numeral.digit 10)) = body.length ∧
      body.length < 2 ^ 64 ∧ (∀ f ∈ fields, ¬ f.Is .TransferEncoding) ∧
      ∃ before f after, fields = before ++ f :: after ∧ f.Is .ContentLength ∧ f.value = digits ∧
        ∀ g ∈ before ++ after, ¬ g.Is .ContentLength
  | chunked _ =>
    (∀ f ∈ fields, ¬ f.Is .ContentLength) ∧
      ∃ f, fields.find? (Field.Is .TransferEncoding) = some f ∧
        (find (ascii "chunked") f.value).isSome

end Framing

def requestTarget (rawPath : Bytes) (query : Option Bytes) : Bytes :=
  rawPath ++ query.elim [] (63 :: ·)

def requestLine (method target : Bytes) : Bytes :=
  method ++ 32 :: (target ++ 32 :: ascii "HTTP/1.1")

/-- A request that asks to keep the connection and for nothing but its answer. -/
structure Request (reg : MethodRegistry) where
  method : Bytes
  rawPath : Bytes
  query : Option Bytes
  fields : List Field
  framing : Framing
  token : isValidToken method
  registered : reg.fromString method ≠ .invalid
  pathPlain : 32 ∉ rawPath ∧ 63 ∉ rawPath ∧ 10 ∉ rawPath
  queryPlain : ∀ q ∈ query, 32 ∉ q ∧ 10 ∉ q
  few : fields.length ≤ 126
  short : (requestLine method (requestTarget rawPath query)).length < 8192
  shortFields : ∀ f ∈ fields, f.line.length < 8192
  announced : framing.Announced fields
  persistent : ∀ f ∈ fields.find? (Field.Is .Connection), toLower f.value = ascii "keep-alive"
  plain : ∀ f ∈ fields, ¬ f.Is .Upgrade ∧ ¬ f.Is .Expect

namespace Request
variable {reg : MethodRegistry} (r : Request reg)

def lines : List Bytes :=
  requestLine r.method (requestTarget r.rawPath r.query) :: (r.fields.map Field.line ++ [[]])

def encode : Bytes := r.lines.flatMap (· ++ crlf) ++ r.framing.encode

def headers : HttpHeaderMap := collect .Cookie r.fields []

def cookies : List (Bytes × Bytes) :=
  (r.fields.filter (Field.Is .Cookie)).foldl
    (fun m f => RequestParser.parseCookies f.value m) []

def message : HttpRequest where
  version := .http11
  method := reg.fromString r.method
  path := if r.rawPath = [] then ascii "/" else Utils.urlDecode r.rawPath
  rawPath := r.rawPath
  query := r.query.getD []
  headers := r.headers
  cookies := r.cookies
  queries := RequestParser.parseQueryString (r.query.getD []) []
  transferMode := r.framing.mode
  contentLength := r.framing.length
  keepAlive := true

end Request
end Nitrocoro.Http
