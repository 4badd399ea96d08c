import Mathlib.Data.List.DropRight
import Nitrocoro.Http.FileCache
import Nitrocoro.Http.Outgoing
import Nitrocoro.Http.Router
import Nitrocoro.Lib.Transition

/-! The handler of `staticFiles`. It runs without a suspension up to the first call that writes to
the response, so a request is one step up to there; then the bytes of its body go out piece by
piece, with the steps of other requests on the same scheduler in between. -/
namespace Nitrocoro.Http
open Text Function

def defaultMimeTypes : List (Bytes × Bytes) :=
  [(".html", "text/html; charset=utf-8"), (".htm", "text/html; charset=utf-8"),
    (".css", "text/css; charset=utf-8"), (".js", "text/javascript; charset=utf-8"),
    (".mjs", "text/javascript; charset=utf-8"), (".json", "application/json"),
    (".xml", "application/xml"), (".txt", "text/plain; charset=utf-8"),
    (".md", "text/markdown; charset=utf-8"), (".svg", "image/svg+xml"), (".png", "image/png"),
    (".jpg", "image/jpeg"), (".jpeg", "image/jpeg"), (".gif", "image/gif"),
    (".ico", "image/x-icon"), (".webp", "image/webp"), (".woff", "font/woff"),
    (".woff2", "font/woff2"), (".ttf", "font/ttf"), (".otf", "font/otf"),
    (".pdf", "application/pdf"), (".wasm", "application/wasm")].map
      fun entry => (ascii entry.1, ascii entry.2)

def defaultAcceptEncodings : List (Bytes × Bytes) :=
  [(ascii "br", ascii "br"), (ascii "gzip", ascii "gz")]

structure StaticFilesOptions where
  indexFile : Bytes := ascii "index.html"
  enableEtag : Bool := true
  maxAge : Int := 3600
  mimeTypes : List (Bytes × Bytes) := defaultMimeTypes
  acceptEncodings : List (Bytes × Bytes) := defaultAcceptEncodings
  /-- In seconds; without a cache if it is not positive. -/
  cacheTtl : Int := 0
  cacheMaxFileSize : Nat := 1024 * 1024
  cacheMaxCacheSize : Nat := 64 * 1024 * 1024
  cacheHeader : Bytes := []

structure FileStat where
  mtime : Int
  size : Nat
  /-- `S_ISREG(st_mode)`. -/
  regular : Bool

/-- The parts of `std::filesystem::path` that only look at names, and the date that `gmtime_r` and
`strftime` make. A relative path is given by its elements. -/
structure Platform where
  append : Bytes → Bytes → Bytes
  filename : Bytes → Bytes
  extension : Bytes → Bytes
  lexicallyRelative : Bytes → Bytes → List Bytes
  date : Int → Bytes

/-- What the file system answers during one request. Where the source throws there is no answer;
`stat` is given the number of the call, and `fopen` the bytes that are in the file when it is
read. `elapsed` is the time between the lookup in the cache and the fill. -/
structure Disk where
  weaklyCanonical : Bytes → Option Bytes
  isDirectory : Bytes → Option Bool
  stat : Nat → Bytes → Option FileStat
  fopen : Bytes → Option Bytes
  elapsed : Nat := 0

def kChunkSize : Nat := 65536

def mimeType (ext : Bytes) (mimeTypes : List (Bytes × Bytes)) : Bytes :=
  (mimeTypes.lookup ext).getD (ascii "application/octet-stream")

def splitTokens (sv : Bytes) : List Bytes :=
  let tokens := (pieces 44 sv).map fun token =>
    ((token.dropWhile (· = 32)).takeWhile (· ≠ 59)).rdropWhile (· = 32)
  tokens.filter (· ≠ [])

/-- `snprintf` into 32 bytes, with both numbers as `unsigned long`. -/
def makeETag (mtime : Int) (size : Nat) : Bytes :=
  let hex (n : Int) := Numeral.print 16 (n % 2 ^ 64).toNat
  ([34] ++ hex mtime ++ [45] ++ hex size ++ [34]).take 31

/-- The captures of the handler: the options, whose file size is at most the cache size, and
`PreCalculated`. -/
structure StaticFiles where
  opts : StaticFilesOptions
  clamped : opts.cacheMaxFileSize ≤ opts.cacheMaxCacheSize
  root : Bytes
  cacheControlValue : Bytes

/-- With the root that `weakly_canonical` gives. -/
def staticFiles (root : Bytes) (opts : StaticFilesOptions) : StaticFiles where
  opts :=
    { opts with
      cacheMaxFileSize :=
        if opts.cacheMaxCacheSize < opts.cacheMaxFileSize then opts.cacheMaxCacheSize
        else opts.cacheMaxFileSize }
  clamped := by
    dsimp only
    split <;> omega
  root := root
  cacheControlValue :=
    if 0 < opts.maxAge then ascii "public, max-age=" ++ Numeral.print 10 opts.maxAge.toNat
    else ascii "no-cache"

/-- An exception, or an answer without a body: `resp.end()` after some calls on the response. -/
inductive Early where
  | thrown
  | ends (calls : List Call)

/-- What the handler comes to before it is suspended. -/
inductive Handled where
  | early (answer : Early)
  /-- `resp.write` of the data of a node, and then `resp.end()`. -/
  | sends (calls : List Call) (addr : Nat) (node : CacheNode)
  /-- The loop over the file. -/
  | streams (calls : List Call) (remaining : Nat)

/-- What the handler knows about the file when it comes to the cache. -/
structure Target where
  filePath : Bytes
  actualPath : Bytes
  stat : FileStat
  selectedEncoding : Bytes
  lastModified : Bytes
  etag : Bytes
  calls : List Call

abbrev Target.cacheKey (t : Target) : Bytes := t.actualPath

namespace StaticFiles
variable (h : StaticFiles) (platform : Platform) (disk : Disk)

def orThrow : Option α → Except Early α
  | some a => .ok a
  | none => .error .thrown

/-- The path of the file, and the check that it is below the root. -/
def resolvePath (params : PathParams) : Except Early Bytes := do
  let param := (params.head?.map Prod.snd).getD []
  let relPath := if param.head? = some 47 then param.drop 1 else param
  let canonical ← orThrow (disk.weaklyCanonical (platform.append h.root relPath))
  let directory ← orThrow (disk.isDirectory canonical)
  let filePath :=
    if directory then platform.append canonical (platform.filename h.opts.indexFile) else canonical
  let rel := platform.lexicallyRelative filePath h.root
  if rel = [] ∨ rel.head? = some (ascii "..") then .error (.ends [.setStatus 403 []])
  else .ok filePath

def etagOf (st : FileStat) : Bytes := if h.opts.enableEtag then makeETag st.mtime st.size else []

def validate (req : HttpRequest) (st : FileStat) : Except Early (List Call) :=
  let ims := req.headers.value .IfModifiedSince
  let ifNoneMatch := req.headers.value .IfNoneMatch
  let lastModified := [Call.setHeaderCode .LastModified (platform.date st.mtime)]
  if ims ≠ [] ∧ ims = platform.date st.mtime then .error (.ends [.setStatus 304 []])
  else if h.opts.enableEtag then
    if ifNoneMatch ≠ [] ∧ ifNoneMatch = h.etagOf st then
      .error (.ends (lastModified ++ [.setStatus 304 []]))
    else .ok (lastModified ++ [.setHeader (ascii "ETag") (h.etagOf st)])
  else .ok lastModified

/-- The first encoding of `Accept-Encoding` that there is a compressed file for. -/
def selectVariant (filePath : Bytes) : Nat → List Bytes → Option (Bytes × FileStat × Bytes)
  | _, [] => none
  | n, token :: tokens =>
    match h.opts.acceptEncodings.lookup token with
    | none => selectVariant filePath n tokens
    | some ext =>
      let candidate := filePath ++ ascii "." ++ ext
      match disk.stat n candidate with
      | some st =>
        if st.regular then some (candidate, st, token)
        else selectVariant filePath (n + 1) tokens
      | none => selectVariant filePath (n + 1) tokens

def target (req : HttpRequest) (params : PathParams) : Except Early Target := do
  let filePath ← h.resolvePath platform disk params
  match disk.stat 0 filePath with
  | none => .error (.ends [.setStatus 404 []])
  | some st =>
    if !st.regular then .error (.ends [.setStatus 404 []])
    else
      let calls ← h.validate platform req st
      let (actualPath, variant, selectedEncoding) :=
        (h.selectVariant disk filePath 1
          (splitTokens (req.headers.value .AcceptEncoding))).getD (filePath, st, [])
      .ok {
        filePath, actualPath, selectedEncoding, calls
        stat := variant
        lastModified := platform.date st.mtime
        etag := h.etagOf st }

variable (t : Target) (req : HttpRequest)

def cacheEnabled : Bool := 0 < h.opts.cacheTtl && t.stat.size ≤ h.opts.cacheMaxFileSize

def fresh (cached : CacheNode) : Bool :=
  if h.opts.enableEtag then cached.etag = t.etag else cached.lastModified = t.lastModified

/-- A header that is left out if its name or its value is empty. -/
def optional (present : Bytes) (call : Call) : List Call := if present = [] then [] else [call]

def hitCalls (cached : CacheNode) : List Call :=
  t.calls ++ [.setStatus 200 [], .setHeaderCode .ContentType cached.mimeType,
    .setHeaderCode .LastModified cached.lastModified] ++
  optional cached.etag (.setHeader (ascii "ETag") cached.etag) ++
  optional cached.contentEncoding (.setHeaderCode .ContentEncoding cached.contentEncoding) ++
  [.setHeaderCode .ContentLength (Numeral.print 10 cached.data.length),
    .setHeaderCode .CacheControl h.cacheControlValue] ++
  optional h.opts.cacheHeader (.setHeader h.opts.cacheHeader (ascii "HIT"))

def missCalls : List Call :=
  t.calls ++ [.setStatus 200 [],
    .setHeaderCode .ContentType (mimeType (platform.extension t.filePath) h.opts.mimeTypes),
    .setHeaderCode .ContentLength (Numeral.print 10 t.stat.size)] ++
  optional t.selectedEncoding (.setHeaderCode .ContentEncoding t.selectedEncoding) ++
  [.setHeaderCode .CacheControl h.cacheControlValue]

def cacheNode (now : Int) (data : Bytes) : CacheNode where
  key := t.cacheKey
  data := data
  etag := t.etag
  lastModified := t.lastModified
  mimeType := mimeType (platform.extension t.filePath) h.opts.mimeTypes
  contentEncoding := t.selectedEncoding
  expireAt := now + disk.elapsed + h.opts.cacheTtl

def fill (now : Int) (c : FileCache) : Handled × FileCache :=
  let calls := h.missCalls platform t
  if req.method = .head then (.early (.ends calls), c)
  else
    match disk.fopen t.actualPath with
    | none => (.early (.ends (calls ++ [.setStatus 500 []])), c)
    | some content =>
      if h.cacheEnabled t then
        let calls := calls ++
          optional h.opts.cacheHeader (.setHeader h.opts.cacheHeader (ascii "MISS"))
        let data := content.take t.stat.size
        if data.length ≠ t.stat.size then (.early (.ends (calls ++ [.setStatus 500 []])), c)
        else
          let node := h.cacheNode platform disk t now data
          let (addr, c) := c.put node h.opts.cacheMaxCacheSize
          (.sends calls addr node, c)
      else (.streams calls t.stat.size, c)

def serve (now : Int) (c : FileCache) : Handled × FileCache :=
  if h.cacheEnabled t then
    match c.get now t.cacheKey with
    | (some (addr, cached), c) =>
      if h.fresh t cached then
        if req.method = .head then (.early (.ends (h.hitCalls t cached)), c)
        else (.sends (h.hitCalls t cached) addr cached, c)
      else h.fill platform disk t req now (c.invalidate t.cacheKey)
    | (none, c) => h.fill platform disk t req now c
  else h.fill platform disk t req now c

def handle (params : PathParams) (now : Int) (c : FileCache) : Handled × FileCache :=
  match h.target platform disk req params with
  | .error answer => (.early answer, c)
  | .ok t => h.serve platform disk t req now c

end StaticFiles

namespace StaticFiles

/-- Where the coroutine of a request is. -/
inductive Phase where
  | idle
  /-- In `resp.write` of the data of a node, with the address and the length it was called with. -/
  | sending (addr length sent : Nat)
  /-- In `fread`. -/
  | reading (remaining : Nat)
  /-- In `resp.write` of the buffer of the loop. -/
  | writing (buf : Bytes) (sent remaining : Nat)
  /-- In `resp.end()`. -/
  | ending
  | returned
  | failed
  deriving DecidableEq

structure State (R : Type) where
  now : Int := 0
  cache : FileCache := {}
  phase : R → Phase := fun _ => .idle
  calls : R → List Call := fun _ => []
  /-- History: the data that a request looked up or read, and the body that it has sent. -/
  data : R → Bytes := fun _ => []
  body : R → Bytes := fun _ => []

inductive Action (R : Type) where
  | request (r : R) (req : HttpRequest) (params : PathParams) (disk : Disk)
  /-- The stream takes some bytes; `junk` is what is in memory at a node that was freed. -/
  | send (r : R) (n : Nat) (junk : Bytes)
  /-- `resp.write` returns. -/
  | written (r : R)
  /-- `fread` returns. -/
  | read (r : R) (chunk : Bytes)
  | finish (r : R)
  /-- A write throws. -/
  | fail (r : R)
  | tick (later : Nat)

variable {R : Type} [DecidableEq R]

namespace State

def setPhase (s : State R) (r : R) (phase : Phase) : State R :=
  { s with phase := update s.phase r phase }

def begin (s : State R) (r : R) : Handled → State R
  | .early .thrown => s.setPhase r .failed
  | .early (.ends calls) => { s with calls := update s.calls r calls }.setPhase r .ending
  | .sends calls addr node =>
    { s with
      calls := update s.calls r calls
      data := update s.data r node.data }.setPhase r (.sending addr node.data.length 0)
  | .streams calls remaining =>
    { s with calls := update s.calls r calls }.setPhase r (.reading remaining)

/-- The bytes in memory behind the first `sent` ones of a node. -/
def memory (s : State R) (addr sent n : Nat) (junk : Bytes) : Bytes :=
  match s.cache.lru.lookup addr with
  | some node => (node.data.drop sent).take n
  | none => junk

def emit (s : State R) (r : R) (bytes : Bytes) : State R :=
  { s with body := update s.body r (s.body r ++ bytes) }

def step (h : StaticFiles) (platform : Platform) (s : State R) : Action R → Option (State R)
  | .request r req params disk =>
    if s.phase r = .idle then
      let (handled, cache) := h.handle platform disk req params s.now s.cache
      some ({ s with cache, now := s.now + disk.elapsed }.begin r handled)
    else none
  | .send r n junk =>
    match s.phase r with
    | .sending addr length sent =>
      if 0 < n ∧ sent + n ≤ length ∧ junk.length = n then
        some ((s.emit r (s.memory addr sent n junk)).setPhase r (.sending addr length (sent + n)))
      else none
    | .writing buf sent remaining =>
      if 0 < n ∧ sent + n ≤ buf.length then
        some ((s.emit r ((buf.drop sent).take n)).setPhase r (.writing buf (sent + n) remaining))
      else none
    | _ => none
  | .written r =>
    match s.phase r with
    | .sending _ length sent => if sent = length then some (s.setPhase r .ending) else none
    | .writing buf sent remaining =>
      if sent = buf.length then some (s.setPhase r (.reading remaining)) else none
    | _ => none
  | .read r chunk =>
    match s.phase r with
    | .reading remaining =>
      if chunk = [] then some (s.setPhase r .ending)
      else if chunk.length ≤ min remaining kChunkSize then
        some ({ s with data := update s.data r (s.data r ++ chunk) }.setPhase r
          (.writing chunk 0 (remaining - chunk.length)))
      else none
    | _ => none
  | .finish r => if s.phase r = .ending then some (s.setPhase r .returned) else none
  | .fail r =>
    match s.phase r with
    | .sending .. | .writing .. | .ending => some (s.setPhase r .failed)
    | _ => none
  | .tick later => some { s with now := s.now + later }

end State

abbrev Reaches (h : StaticFiles) (platform : Platform) (labels : List (Action R)) (s : State R) :
    Prop :=
  Transition.Run (State.step h platform) Transition.free {} labels s

end StaticFiles

end Nitrocoro.Http
