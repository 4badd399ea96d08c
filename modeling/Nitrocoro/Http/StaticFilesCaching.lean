import Nitrocoro.Http.StaticFilesAnswers

/-! What a client can rely on: that an answer from the cache is the one the file system would give,
that an entity tag stands for one body, and that a file it does not have is sent. Each holds up to a
condition on the files and the requests. -/
namespace Nitrocoro.Http.StaticFiles
open Text Transition
variable {h : StaticFiles} {platform : Platform} {disk : Disk} {t : Target} {req : HttpRequest}
variable {R : Type} [DecidableEq R] {s : State R} {labels : List (Action R)}

/-- A handler with a cache, and a file of one byte with a compressed one beside it that was made at
`n` and has that number as its byte. -/
def caching : StaticFiles := staticFiles [] { cacheTtl := 60 }

def compressed (n : Nat) : Disk where
  weaklyCanonical := some
  isDirectory _ := some false
  stat _ path :=
    if path = ascii "a" then some ⟨0, 1, true⟩
    else if path = ascii "a.gz" then some ⟨n, 1, true⟩
    else none
  fopen path :=
    if path = ascii "a" then some (ascii "a")
    else if path = ascii "a.gz" then some [.ofNat n]
    else none

def compressedContent (path : Bytes) (mtime : Int) (_ : Nat) : Bytes :=
  if path = ascii "a" then ascii "a" else [.ofNat mtime.toNat]

theorem determined_compressed (n : Nat) : Determined compressedContent (compressed n) := by
  intro call path st found _
  by_cases plain : path = ascii "a"
  · simp only [compressed, if_pos plain] at found
    cases found
    simp [compressed, compressedContent, plain, ascii]
  by_cases zipped : path = ascii "a.gz"
  · simp only [compressed, if_neg plain, if_pos zipped] at found
    cases found
    simp [compressed, compressedContent, zipped, ascii]
  · simp [compressed, plain, zipped] at found

def fileA : PathParams := [([], ascii "a")]

def zippedTarget : Target where
  filePath := ascii "a"
  actualPath := ascii "a.gz"
  stat := ⟨1, 1, true⟩
  selectedEncoding := ascii "gzip"
  lastModified := []
  etag := makeETag 0 1
  calls := [.setHeaderCode .LastModified [], .setHeader (ascii "ETag") (makeETag 0 1)]

def OnFiles (disk : Disk) (labels : List (Action R)) : Prop :=
  ∀ r req params d, .request r req params d ∈ labels → d = { disk with elapsed := d.elapsed }

/-- On files that stay as they are, an answer with a file has the bytes of the file that was
selected, from the cache or not. -/
theorem answer_delivered (run : Reaches h platform labels s) (same : OnFiles disk labels)
    (fixed : ∀ n path, disk.stat n path = disk.stat 0 path)
    (found : h.target platform disk req params = .ok t) (get : req.method ≠ .head)
    (answered : h.answer platform disk req params s.now s.cache = some a)
    (ok : (view a).status = 200) : h.delivered disk t.actualPath t.stat = some a.2 := by
  obtain ⟨inv, nodes⟩ := filled_of_run run
  obtain ⟨n, there, -⟩ := target_stat found
  cases cached : h.cacheEnabled t && h.hit t s.now s.cache with
  | true =>
    obtain ⟨addr, node, mem, key, -, fromCache⟩ := answer_hit inv.sound found cached
    rw [fromCache, if_neg get] at answered
    cases answered
    obtain ⟨d, t₀, filled⟩ : ∃ d t₀, Filled h platform labels node d t₀ := nodes _ mem
    have path := filled.fields.1.symm.trans key
    obtain ⟨r₀, req₀, params₀, asked, found₀, put⟩ := filled.asked
    obtain ⟨n₀, there₀, -⟩ := target_stat found₀
    rw [same r₀ req₀ params₀ d asked] at there₀ put
    have stats : t₀.stat = t.stat := by
      have both : disk.stat n₀ t₀.actualPath = some t₀.stat := there₀
      rw [fixed, path, ← fixed n, there] at both
      exact (Option.some.inj both).symm
    have read := delivered_of_filled (h := h) put
    rw [path, stats] at read
    exact read
  | false =>
    rw [answer_miss s.now inv.sound found cached] at answered
    cases read : h.delivered disk t.actualPath t.stat with
    | some body =>
      rw [fetch_some get read] at answered
      cases answered
      rfl
    | none =>
      obtain ⟨calls, failed⟩ := fetch_none platform get read
      rw [failed] at answered
      cases answered
      have status : statusSet (calls ++ [.setStatus 500 []]) = 500 := statusSet_append ..
      rw [view_status status (by decide)] at ok
      cases ok

def tag (a : List Call × Bytes) : Option Bytes :=
  ((OutgoingResponse.head true a.1).data.headers.lookup (toLower (ascii "ETag"))).map
    HttpHeader.value

theorem tag_eq (a : List Call × Bytes) : tag a = headerSet a.1 (toLower (ascii "ETag")) :=
  (head_other true a.1).2 _ (by decide)

theorem headerSet_okCalls_etag (named : toLower h.opts.cacheHeader ≠ toLower (ascii "ETag")) :
    headerSet (h.okCalls platform t) (toLower (ascii "ETag")) =
      headerSet t.calls (toLower (ascii "ETag")) := by
  have apart : ∀ code ∈ [NameCode.ContentType, .ContentLength, .ContentEncoding, .CacheControl],
      toLower (ascii "ETag") ≠ code.codeToName := by decide
  have other := named.symm
  have type := apart .ContentType (by decide)
  have length := apart .ContentLength (by decide)
  have encoding := apart .ContentEncoding (by decide)
  have control := apart .CacheControl (by decide)
  unfold okCalls missCalls
  split <;> simp [headerSet_optional, other, type, length, encoding, control]

/-- The file that a request of the encodings is answered with on its first time. -/
theorem answer_asking (resolved : h.resolvePath platform disk params = .ok filePath)
    (there : disk.stat 0 filePath = some st) (regular : st.regular)
    (enabled : h.opts.enableEtag = true)
    (named : toLower h.opts.cacheHeader ≠ toLower (ascii "ETag")) (acceptEncoding : Bytes)
    (read : h.delivered disk (h.selected disk filePath st acceptEncoding).1
      (h.selected disk filePath st acceptEncoding).2.1 = some body) :
    ∃ a, h.answer platform disk (asking acceptEncoding) params 0 {} = some a ∧
      (view a).status = 200 ∧ tag a = some (h.etagOf st) ∧ a.2 = body := by
  have valid : h.validate platform (asking acceptEncoding) st =
      .ok [.setHeaderCode .LastModified (platform.date st.mtime),
        .setHeader (ascii "ETag") (h.etagOf st)] := by
    have ims : unmodified platform (asking acceptEncoding) st = false := rfl
    have match_ : h.matched (asking acceptEncoding) st = false := by
      have absent : (asking acceptEncoding).headers.value .IfNoneMatch = [] := rfl
      simp [matched, absent]
    simp [validate_eq, ims, match_, enabled]
  obtain ⟨t, found, path, stat, calls⟩ : ∃ t,
      h.target platform disk (asking acceptEncoding) params = .ok t ∧
      t.actualPath = (h.selected disk filePath st acceptEncoding).1 ∧
      t.stat = (h.selected disk filePath st acceptEncoding).2.1 ∧
      t.calls = [.setHeaderCode .LastModified (platform.date st.mtime),
        .setHeader (ascii "ETag") (h.etagOf st)] :=
    ⟨_, target_eq_ok_iff.mpr ⟨filePath, st, _, resolved, there, regular, valid, rfl⟩, rfl, rfl, rfl⟩
  rw [← path, ← stat] at read
  have miss : (h.cacheEnabled t && h.hit t 0 {}) = false := Bool.and_false _
  refine ⟨_, answer_miss 0 FileCache.sound_empty found miss, ?_⟩
  have get : (asking acceptEncoding).method ≠ .head := get_ne_head
  rw [fetch_some get read]
  refine ⟨view_status (statusSet_okCalls (target_calls found)) (by decide), ?_, rfl⟩
  rw [tag_eq, headerSet_okCalls_etag named, calls]
  simp

theorem delivered_copied (there : (compressed 97).stat n path = some st) :
    caching.delivered (compressed 97) path st = some (ascii "a") := by
  by_cases plain : path = ascii "a"
  · simp only [compressed, if_pos plain] at there
    cases there
    rw [plain]
    decide
  by_cases zipped : path = ascii "a.gz"
  · simp only [compressed, if_neg plain, if_pos zipped] at there
    cases there
    rw [zipped]
    decide
  · simp [compressed, plain, zipped] at there

/-- A target is answered from the cache, with the data of an entry that has its entity tag, or with
what is read from the file. -/
theorem answer_cases (run : Reaches h platform labels s) (enabled : h.opts.enableEtag = true)
    (found : h.target platform disk req params = .ok t) :
    ∃ a, h.answer platform disk req params s.now s.cache = some a ∧
      ((view a).status = 200 ∨ (view a).status = 500) ∧
      ∀ data, filled disk t req = some data → (view a).status = 200 ∧
        (a.2 = data ∨ ∃ addr node, (addr, node) ∈ s.cache.lru ∧ node.key = t.actualPath ∧
          node.etag = t.etag ∧ a.2 = node.data) := by
  have inv := (filled_of_run run).1
  have early := target_calls found
  cases answered : h.cacheEnabled t && h.hit t s.now s.cache with
  | true =>
    obtain ⟨addr, node, mem, key, fresh, fromCache⟩ := answer_hit inv.sound found answered
    have status : (view (h.hitCalls t node, if req.method = .head then [] else node.data)).status =
        200 := view_status (headerSet_hitCalls h early node).1 (by decide)
    refine ⟨_, fromCache, .inl status, fun data put => ⟨status, .inr ⟨addr, node, mem, key, ?_, ?_⟩⟩⟩
    · simpa [StaticFiles.fresh, enabled] using fresh
    · exact if_neg (filled_eq_some_iff.mp put).1
  | false =>
    refine ⟨_, answer_miss s.now inv.sound found answered, ?_, fun data put => ?_⟩
    · rcases fetch_status h platform disk req early with ok | failed
      · exact .inl (view_status ok (by decide))
      · exact .inr (view_status failed (by decide))
    · rw [fetch_some (filled_eq_some_iff.mp put).1 (delivered_of_filled put)]
      exact ⟨view_status (statusSet_okCalls early) (by decide), .inl rfl⟩

/-- With an entity tag that does not match, a request is answered with 304 exactly if the date of the
file is the one that it carries. -/
theorem not_modified_iff (run : Reaches h platform labels s)
    (resolved : h.resolvePath platform disk params = .ok filePath)
    (there : disk.stat 0 filePath = some st) (regular : st.regular)
    (enabled : h.opts.enableEtag = true) (changed : req.headers.value .IfNoneMatch ≠ h.etagOf st) :
    (((h.answer platform disk req params s.now s.cache).map fun a => (view a).status) = some 304 ↔
      req.headers.value .IfModifiedSince ≠ [] ∧
        req.headers.value .IfModifiedSince = platform.date st.mtime) ∧
    (¬ (req.headers.value .IfModifiedSince ≠ [] ∧
        req.headers.value .IfModifiedSince = platform.date st.mtime) →
      ∃ t, h.target platform disk req params = .ok t ∧ t.filePath = filePath ∧
        ∀ data, filled disk t req = some data →
          ∃ a, h.answer platform disk req params s.now s.cache = some a ∧ (view a).status = 200 ∧
            (a.2 = data ∨ ∃ addr node, (addr, node) ∈ s.cache.lru ∧ node.key = t.actualPath ∧
              node.etag = h.etagOf st ∧ a.2 = node.data)) := by
  have unmatched : h.matched req st = false := by simp [matched, changed]
  have valid := h.validate_eq platform req st
  rw [unmatched] at valid
  rw [← unmodified_iff]
  by_cases same : unmodified platform req st = true
  · rw [if_pos same] at valid
    have answered : h.answer platform disk req params s.now s.cache =
        some ([.setStatus 304 []], []) := by
      simp [answer, target, resolved, there, regular, valid, bind, Except.bind]
    rw [answered]
    exact ⟨iff_of_true rfl same, fun other => absurd same other⟩
  rw [if_neg same] at valid
  obtain ⟨t, found, path, etag⟩ : ∃ t, h.target platform disk req params = .ok t ∧
      t.filePath = filePath ∧ t.etag = h.etagOf st :=
    ⟨_, target_eq_ok_iff.mpr ⟨filePath, st, _, resolved, there, regular, valid, rfl⟩, rfl, rfl⟩
  obtain ⟨a, answered, statuses, whole⟩ := answer_cases run enabled found
  refine ⟨iff_of_false ?_ same, fun _ => ⟨t, found, path, fun data put => ?_⟩⟩
  · rw [answered, Option.map_some]
    rcases statuses with ok | failed
    · rw [ok]
      decide
    · rw [failed]
      decide
  · rw [← etag]
    exact ⟨a, answered, whole data put⟩

/-- A request with an entity tag of a file of two bytes, and a date. -/
def revalidating (ims : String) : HttpRequest where
  method := .get
  headers := [(NameCode.IfNoneMatch.codeToName, .ofCode .IfNoneMatch (makeETag 0 2)),
    (NameCode.IfModifiedSince.codeToName, .ofCode .IfModifiedSince (ascii ims))]

def dated : Platform := { plainPaths with date := fun _ => ascii "today" }

theorem not_modified_other :
    ((caching.answer dated (compressed 1) (revalidating "yesterday") fileA 0 {}).map
      fun a => (view a).status) ≠ some 304 ∧
    ∃ a, caching.answer dated (compressed 1) (revalidating "yesterday") fileA 0 {} = some a ∧
      (view a).status = 200 ∧ a.2 = ascii "a" := by
  have run : Reaches caching dated [] ({} : State (Fin 1)) := .refl
  have other : ¬ ((revalidating "yesterday").headers.value .IfModifiedSince ≠ [] ∧
      (revalidating "yesterday").headers.value .IfModifiedSince = dated.date 0) := by decide
  have resolved : caching.resolvePath dated (compressed 1) fileA = .ok (ascii "a") := rfl
  have there : (compressed 1).stat 0 (ascii "a") = some ⟨0, 1, true⟩ := rfl
  have changed : (revalidating "yesterday").headers.value .IfNoneMatch ≠
      caching.etagOf ⟨0, 1, true⟩ := by decide
  obtain ⟨same, sent⟩ := not_modified_iff run resolved there rfl rfl changed
  refine ⟨mt same.mp other, ?_⟩
  obtain ⟨t, found, -, whole⟩ := sent other
  cases found
  obtain ⟨a, answered, status, body | ⟨addr, node, mem, -⟩⟩ := whole (ascii "a") rfl
  · exact ⟨a, answered, status, body⟩
  · cases mem

/-- The file has another size than the client knows, and the date that it knows. -/
theorem changed_not_modified :
    (revalidating "today").headers.value .IfNoneMatch ≠ caching.etagOf ⟨0, 1, true⟩ ∧
    ((caching.answer dated (compressed 1) (revalidating "today") fileA 0 {}).map
      fun a => (view a).status) = some 304 := by
  decide

end Nitrocoro.Http.StaticFiles
