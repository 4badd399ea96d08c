import Nitrocoro.Http.ResponseHead
import Nitrocoro.Http.StaticFilesProofs

/-! The answers of the static file handler as a client sees them: the status and the headers that
its calls leave in the head of the response, and the body behind it. -/
namespace Nitrocoro.Http
open Text NameCode

namespace StaticFiles
variable {h : StaticFiles} {platform : Platform} {disk : Disk} {t : Target} {req : HttpRequest}

def bodyCodes : List NameCode := [.ContentType, .ContentEncoding, .ContentLength]

/-- The headers that are set before the cache is looked up are none of them. -/
structure Early.Calls (calls : List Call) : Prop where
  quiet : ∀ call ∈ calls, call.isWrite = false
  status : calls.filterMap Call.status? = []
  headers : ∀ code ∈ bodyCodes, headerSet calls code.codeToName = none

/-- The client has the file as it was last modified, by its date or by its entity tag. -/
def unmodified (platform : Platform) (req : HttpRequest) (st : FileStat) : Bool :=
  let ims := req.headers.value .IfModifiedSince
  ims ≠ [] && ims = platform.date st.mtime

def matched (h : StaticFiles) (req : HttpRequest) (st : FileStat) : Bool :=
  let ifNoneMatch := req.headers.value .IfNoneMatch
  h.opts.enableEtag && ifNoneMatch ≠ [] && ifNoneMatch = h.etagOf st

theorem unmodified_iff : unmodified platform req st = true ↔
    req.headers.value .IfModifiedSince ≠ [] ∧
      req.headers.value .IfModifiedSince = platform.date st.mtime := by
  simp [unmodified]

theorem validate_eq (h : StaticFiles) (platform : Platform) (req : HttpRequest) (st : FileStat) :
    h.validate platform req st =
      if unmodified platform req st then .error (.ends [.setStatus 304 []])
      else if h.matched req st then
        .error (.ends [.setHeaderCode .LastModified (platform.date st.mtime), .setStatus 304 []])
      else .ok (.setHeaderCode .LastModified (platform.date st.mtime) ::
        if h.opts.enableEtag then [.setHeader (ascii "ETag") (h.etagOf st)] else []) := by
  unfold validate unmodified matched
  cases h.opts.enableEtag <;> simp

theorem validate_calls (valid : h.validate platform req st = .ok calls) : Early.Calls calls := by
  have etag : ∀ code ∈ bodyCodes, code.codeToName ≠ toLower (ascii "ETag") := by decide
  have date : ∀ code ∈ bodyCodes, code.codeToName ≠ LastModified.codeToName := by decide
  rw [validate_eq] at valid
  split at valid
  · cases valid
  split at valid <;> cases valid
  constructor
  · cases h.opts.enableEtag <;> simp [Call.isWrite]
  · cases h.opts.enableEtag <;> rfl
  · intro code mem
    cases h.opts.enableEtag <;> simp [etag code mem, date code mem]

theorem target_eq_ok_iff : h.target platform disk req params = .ok t ↔
    ∃ filePath st calls, h.resolvePath platform disk params = .ok filePath ∧
      disk.stat 0 filePath = some st ∧ st.regular ∧ h.validate platform req st = .ok calls ∧
      t = (let variant := (h.selectVariant disk filePath 1
            (splitTokens (req.headers.value .AcceptEncoding))).getD (filePath, st, [])
          { filePath, calls
            actualPath := variant.1
            stat := variant.2.1
            selectedEncoding := variant.2.2
            lastModified := platform.date st.mtime
            etag := h.etagOf st }) := by
  unfold target
  cases resolved : h.resolvePath platform disk params with
  | error answer => simp [bind, Except.bind]
  | ok filePath =>
    simp only [bind, Except.bind]
    cases found : disk.stat 0 filePath with
    | none => simp [found]
    | some st =>
      cases regular : st.regular with
      | false => simp [regular, found]
      | true =>
        cases valid : h.validate platform req st with
        | error answer => simp [regular, valid, found]
        | ok calls => simp [regular, valid, found, eq_comm (a := t)]

theorem resolvePath_error (failed : h.resolvePath platform disk params = .error (.ends calls)) :
    calls = [.setStatus 403 []] := by
  have orThrow_ends : ∀ {α : Type} {x : Option α}, orThrow x ≠ .error (.ends calls) := by
    intro α x
    cases x <;> simp [orThrow]
  simp only [resolvePath, bind, Except.bind] at failed
  split at failed
  · rename_i thrown
    cases failed
    exact absurd thrown orThrow_ends
  split at failed
  · rename_i thrown
    cases failed
    exact absurd thrown orThrow_ends
  split_ifs at failed <;> cases failed <;> rfl

def Refusal (calls : List Call) : Prop :=
  ∃ before code, code ∈ [304, 403, 404] ∧ calls = before ++ [.setStatus code []] ∧
    (before = [] ∨ ∃ date, before = [.setHeaderCode .LastModified date])

theorem target_error (failed : h.target platform disk req params = .error (.ends calls)) :
    Refusal calls := by
  have plain : ∀ {code}, code ∈ [304, 403, 404] → Refusal [.setStatus code []] :=
    fun {code} known => ⟨[], code, known, rfl, .inl rfl⟩
  unfold target at failed
  cases resolved : h.resolvePath platform disk params with
  | error answer =>
    rw [resolved] at failed
    cases failed
    rw [resolvePath_error resolved]
    exact plain (by decide)
  | ok filePath =>
    simp only [resolved, bind, Except.bind] at failed
    cases found : disk.stat 0 filePath with
    | none =>
      rw [found] at failed
      cases failed
      exact plain (by decide)
    | some st =>
      cases regular : st.regular with
      | false =>
        simp only [found, regular] at failed
        cases failed
        exact plain (by decide)
      | true =>
        simp only [found, regular, validate_eq] at failed
        by_cases same : unmodified platform req st = true
        · simp only [same] at failed
          cases failed
          exact plain (by decide)
        by_cases known : h.matched req st = true
        · simp only [same, known] at failed
          cases failed
          exact ⟨_, 304, by decide, rfl, .inr ⟨_, rfl⟩⟩
        · simp [same, known] at failed

theorem target_calls (found : h.target platform disk req params = .ok t) : Early.Calls t.calls := by
  obtain ⟨-, st, calls, -, -, -, valid, rfl⟩ := target_eq_ok_iff.mp found
  exact validate_calls valid

/-- The header that tells whether the cache answered has the name of another one. -/
def Masks (h : StaticFiles) (code : NameCode) : Prop := code.codeToName = toLower h.opts.cacheHeader

instance : Decidable (h.Masks code) := inferInstanceAs (Decidable (_ = _))

theorem headerSet_optional (present : Bytes) (call : Call) (name : Bytes) :
    headerSet (optional present call) name =
      if present = [] then none else headerSet [call] name := by
  unfold optional
  split <;> rfl

theorem headerSet_cacheHeader (h : StaticFiles) (value : Bytes) (known : code ≠ .Unknown) :
    headerSet (optional h.opts.cacheHeader (.setHeader h.opts.cacheHeader value))
      code.codeToName = if h.Masks code then some value else none := by
  have named : code.codeToName ≠ [] := (table_listed _ (mem_table known)).2.2.1
  rw [headerSet_optional]
  by_cases empty : h.opts.cacheHeader = []
  · have apart : ¬ h.Masks code := by simpa [Masks, empty, toLower] using named
    simp [empty, apart]
  · rw [if_neg empty, headerSet_name, headerSet_nil]
    exact if_congr Iff.rfl rfl rfl

theorem headerSet_missCalls (h : StaticFiles) (platform : Platform) (early : Early.Calls t.calls) :
    statusSet (h.missCalls platform t) = 200 ∧
    headerSet (h.missCalls platform t) ContentType.codeToName =
      some (mimeType (platform.extension t.filePath) h.opts.mimeTypes) ∧
    headerSet (h.missCalls platform t) ContentLength.codeToName =
      some (Numeral.print 10 t.stat.size) ∧
    headerSet (h.missCalls platform t) ContentEncoding.codeToName =
      (if t.selectedEncoding = [] then none else some t.selectedEncoding) := by
  have encoding := early.headers .ContentEncoding (by decide)
  refine ⟨?_, ?_, ?_, ?_⟩
  · unfold missCalls optional statusSet
    split <;> simp [Call.status?, List.filterMap_cons]
  all_goals simp [missCalls, headerSet_optional, codeToName_eq_iff, encoding]

theorem headerSet_hitCalls (h : StaticFiles) (early : Early.Calls t.calls) (cached : CacheNode) :
    statusSet (h.hitCalls t cached) = 200 ∧ headerSet (h.hitCalls t cached) ContentType.codeToName =
      (if h.Masks .ContentType then some (ascii "HIT") else some cached.mimeType) ∧
    headerSet (h.hitCalls t cached) ContentLength.codeToName =
      (if h.Masks .ContentLength then some (ascii "HIT")
        else some (Numeral.print 10 cached.data.length)) ∧
    headerSet (h.hitCalls t cached) ContentEncoding.codeToName =
      (if h.Masks .ContentEncoding then some (ascii "HIT")
        else if cached.contentEncoding = [] then none else some cached.contentEncoding) := by
  have encoding := early.headers .ContentEncoding (by decide)
  have typed : ContentType.codeToName ≠ toLower (ascii "ETag") := by decide
  have encoded : ContentEncoding.codeToName ≠ toLower (ascii "ETag") := by decide
  refine ⟨?_, ?_, ?_, ?_⟩
  · unfold hitCalls optional statusSet
    split <;> split <;> split <;> simp [Call.status?, List.filterMap_cons]
  all_goals
    unfold hitCalls
    rw [headerSet_append, headerSet_cacheHeader h _ (by decide)]
    split
    · rfl
    · simp [headerSet_optional, codeToName_eq_iff, encoding, typed, encoded]

/-- The calls on a response and its body, if the file does not change before it is out. -/
def answerOf (disk : Disk) (t : Target) : Handled → Option (List Call × Bytes)
  | .early .thrown => none
  | .early (.ends calls) => some (calls, [])
  | .sends calls _ node => some (calls, node.data)
  | .streams calls remaining => some (calls, ((disk.fopen t.actualPath).getD []).take remaining)

def answer (h : StaticFiles) (platform : Platform) (disk : Disk) (req : HttpRequest)
    (params : PathParams) (now : Int) (c : FileCache) : Option (List Call × Bytes) :=
  match h.target platform disk req params with
  | .error .thrown => none
  | .error (.ends calls) => some (calls, [])
  | .ok t => answerOf disk t (h.serve platform disk t req now c).1

def fetch (h : StaticFiles) (platform : Platform) (disk : Disk) (t : Target) (req : HttpRequest) :
    List Call × Bytes :=
  let calls := h.missCalls platform t
  if req.method = .head then (calls, [])
  else
    match disk.fopen t.actualPath with
    | none => (calls ++ [.setStatus 500 []], [])
    | some content =>
      if h.cacheEnabled t then
        let calls := calls ++
          optional h.opts.cacheHeader (.setHeader h.opts.cacheHeader (ascii "MISS"))
        if content.length < t.stat.size then (calls ++ [.setStatus 500 []], [])
        else (calls, content.take t.stat.size)
      else (calls, content.take t.stat.size)

theorem answerOf_fill (now : Int) (c : FileCache) :
    answerOf disk t (h.fill platform disk t req now c).1 = some (h.fetch platform disk t req) := by
  unfold fill fetch
  by_cases head : req.method = .head
  · simp [head, answerOf]
  simp only [if_neg head]
  cases opened : disk.fopen t.actualPath with
  | none => rfl
  | some content =>
    by_cases enabled : h.cacheEnabled t = true
    · simp only [if_pos enabled, List.length_take]
      by_cases short : content.length < t.stat.size
      · have cut : min t.stat.size content.length ≠ t.stat.size := by omega
        rw [if_pos cut, if_pos short]
        rfl
      · have whole : ¬ min t.stat.size content.length ≠ t.stat.size := by omega
        rw [if_neg whole, if_neg short]
        rfl
    · simp [enabled, answerOf, opened]

theorem serve_eq_fill (platform : Platform) (disk : Disk) (req : HttpRequest) (sound : c.Sound)
    (miss : (h.cacheEnabled t && h.hit t now c) = false) :
    ∃ d, h.serve platform disk t req now c = h.fill platform disk t req now d := by
  cases enabled : h.cacheEnabled t with
  | false =>
    refine ⟨c, ?_⟩
    unfold serve
    rw [enabled]
    rfl
  | true =>
    rw [enabled] at miss
    obtain ⟨d, -, -, same⟩ := serve_miss platform disk req enabled sound miss
    exact ⟨d, same⟩

theorem serve_eq_hit (platform : Platform) (disk : Disk) (req : HttpRequest) (sound : c.Sound)
    (answered : (h.cacheEnabled t && h.hit t now c) = true) :
    ∃ addr node, (addr, node) ∈ c.lru ∧ node.key = t.actualPath ∧ h.fresh t node = true ∧
      (h.serve platform disk t req now c).1 =
        if req.method = .head then .early (.ends (h.hitCalls t node))
        else .sends (h.hitCalls t node) addr node := by
  obtain ⟨enabled, answered⟩ := Bool.and_eq_true_iff.mp answered
  unfold hit at answered
  split at answered
  case h_2 => cases answered
  rename_i addr node there
  obtain ⟨current, fresh⟩ := Bool.and_eq_true_iff.mp answered
  obtain ⟨mem, key⟩ := sound.find_iff.mp there
  refine ⟨addr, node, mem, key, fresh, ?_⟩
  simp only [serve, if_pos enabled, sound.get_of_find there]
  rw [if_neg (by simpa using current)]
  simp only [fresh, if_true]
  split <;> rfl

theorem answer_miss (now : Int) (sound : c.Sound)
    (found : h.target platform disk req params = .ok t)
    (miss : (h.cacheEnabled t && h.hit t now c) = false) :
    h.answer platform disk req params now c = some (h.fetch platform disk t req) := by
  obtain ⟨d, same⟩ := serve_eq_fill platform disk req sound miss
  simp only [answer, found, same]
  exact answerOf_fill now d

theorem answer_hit (sound : c.Sound) (found : h.target platform disk req params = .ok t)
    (answered : (h.cacheEnabled t && h.hit t now c) = true) :
    ∃ addr node, (addr, node) ∈ c.lru ∧ node.key = t.actualPath ∧ h.fresh t node = true ∧
      h.answer platform disk req params now c =
        some (h.hitCalls t node, if req.method = .head then [] else node.data) := by
  obtain ⟨addr, node, mem, key, fresh, served⟩ := serve_eq_hit platform disk req sound answered
  refine ⟨addr, node, mem, key, fresh, ?_⟩
  simp only [answer, found, served]
  split <;> rfl

theorem serve_nodes (sound : c.Sound) (mem : entry ∈ (h.serve platform disk t req now c).2.lru) :
    entry ∈ c.lru ∨ ∃ data, filled disk t req = some data ∧
      entry.2 = h.cacheNode platform disk t now data := by
  cases enabled : h.cacheEnabled t with
  | false =>
    unfold serve at mem
    rw [enabled] at mem
    simp only [Bool.false_eq_true, if_false] at mem
    rw [(fill_disabled enabled sound).1] at mem
    exact .inl mem
  | true =>
    cases answered : h.hit t now c with
    | true =>
      exact .inl ((serve_hit platform disk req enabled sound answered).1.mem_iff.mpr mem)
    | false =>
      obtain ⟨d, evolves, others, same⟩ := serve_miss platform disk req enabled sound answered
      have kept : ∀ {entry}, entry ∈ d.lru → entry ∈ c.lru := by
        intro entry mem
        rw [others] at mem
        exact List.mem_of_mem_filter mem
      rw [same] at mem
      cases put : filled disk t req with
      | none =>
        rw [(fill_none enabled evolves.sound put).1] at mem
        exact .inl (kept mem)
      | some data =>
        rw [(fill_some enabled evolves.sound put).1, (evolves.sound.put _ _).2.2] at mem
        rcases List.mem_cons.mp mem with rfl | mem
        · exact .inr ⟨data, rfl, rfl⟩
        · exact .inl (kept (List.mem_of_mem_filter ((Budget.fit_isPrefix _ _).subset mem)))

theorem selectVariant_found (h : StaticFiles) {n : Nat} {tokens : List Bytes}
    (selected : h.selectVariant disk filePath n tokens = some (path, st, token)) :
    ∃ m, disk.stat m path = some st ∧ st.regular := by
  induction tokens generalizing n with
  | nil => cases selected
  | cons first tokens ih =>
    unfold selectVariant at selected
    split at selected
    · exact ih selected
    dsimp only at selected
    split at selected
    · rename_i found
      split at selected
      · rename_i regular
        cases selected
        exact ⟨n, found, regular⟩
      · exact ih selected
    · exact ih selected

def selected (h : StaticFiles) (disk : Disk) (filePath : Bytes) (st : FileStat)
    (acceptEncoding : Bytes) : Bytes × FileStat × Bytes :=
  (h.selectVariant disk filePath 1 (splitTokens acceptEncoding)).getD (filePath, st, [])

theorem selected_found (acceptEncoding : Bytes) (there : disk.stat 0 filePath = some st)
    (regular : st.regular) : ∃ n, disk.stat n (h.selected disk filePath st acceptEncoding).1 =
      some (h.selected disk filePath st acceptEncoding).2.1 ∧
      (h.selected disk filePath st acceptEncoding).2.1.regular := by
  unfold selected
  cases found : h.selectVariant disk filePath 1 (splitTokens acceptEncoding) with
  | none => exact ⟨0, there, regular⟩
  | some variant => exact selectVariant_found h found

theorem target_stat (found : h.target platform disk req params = .ok t) :
    ∃ n, disk.stat n t.actualPath = some t.stat ∧ t.stat.regular := by
  obtain ⟨filePath, st, -, -, there, regular, -, rfl⟩ := target_eq_ok_iff.mp found
  exact selected_found _ there regular

/-- The bytes of a file are determined by its path, the second of its last change and its size. -/
def Determined (content : Bytes → Int → Nat → Bytes) (disk : Disk) : Prop :=
  ∀ n path st, disk.stat n path = some st → st.regular →
    (content path st.mtime st.size).length = st.size ∧
      disk.fopen path = some (content path st.mtime st.size)

def uncached (h : StaticFiles) : StaticFiles :=
  { h with opts := { h.opts with cacheTtl := 0 }, clamped := h.clamped }

theorem selectVariant_uncached (h : StaticFiles) (n : Nat) (tokens : List Bytes) :
    h.uncached.selectVariant disk filePath n tokens = h.selectVariant disk filePath n tokens := by
  induction tokens generalizing n with
  | nil => rfl
  | cons token tokens ih =>
    unfold selectVariant
    rw [ih, ih]
    rfl

theorem target_uncached :
    h.uncached.target platform disk req params = h.target platform disk req params := by
  unfold target
  simp only [selectVariant_uncached]
  rfl

theorem status_optional (present name value : Bytes) :
    (optional present (.setHeader name value)).filterMap Call.status? = [] := by
  unfold optional
  split <;> rfl

theorem filled_eq_some_iff : filled disk t req = some data ↔ req.method ≠ .head ∧
    ∃ content, disk.fopen t.actualPath = some content ∧ t.stat.size ≤ content.length ∧
      data = content.take t.stat.size := by
  unfold filled
  by_cases head : req.method = .head
  · simp [head]
  cases opened : disk.fopen t.actualPath with
  | none => simp
  | some content =>
    by_cases whole : t.stat.size ≤ content.length
    · simp [eq_comm]
    · simp [whole]

def cacheable (h : StaticFiles) (st : FileStat) : Bool :=
  0 < h.opts.cacheTtl && st.size ≤ h.opts.cacheMaxFileSize

theorem cacheable_stat (h : StaticFiles) (t : Target) : h.cacheable t.stat = h.cacheEnabled t := rfl

def delivered (h : StaticFiles) (disk : Disk) (path : Bytes) (st : FileStat) : Option Bytes :=
  (disk.fopen path).bind fun content =>
    if h.cacheable st ∧ content.length < st.size then none else some (content.take st.size)

theorem delivered_of_filled (put : filled disk t req = some data) :
    h.delivered disk t.actualPath t.stat = some data := by
  obtain ⟨-, content, opened, whole, rfl⟩ := filled_eq_some_iff.mp put
  simp [delivered, opened, not_lt.mpr whole]

def okCalls (h : StaticFiles) (platform : Platform) (t : Target) : List Call :=
  h.missCalls platform t ++ if h.cacheEnabled t then
    optional h.opts.cacheHeader (.setHeader h.opts.cacheHeader (ascii "MISS")) else []

theorem fetch_some (get : req.method ≠ .head)
    (read : h.delivered disk t.actualPath t.stat = some body) :
    h.fetch platform disk t req = (h.okCalls platform t, body) := by
  obtain ⟨content, opened, read⟩ := Option.bind_eq_some_iff.mp read
  rw [cacheable_stat] at read
  unfold fetch okCalls
  rw [if_neg get, opened]
  by_cases enabled : h.cacheEnabled t = true
  · by_cases short : content.length < t.stat.size
    · simp [enabled, short] at read
    · simpa [enabled, short] using read
  · simpa [enabled] using read

theorem fetch_none (platform : Platform) (get : req.method ≠ .head)
    (unread : h.delivered disk t.actualPath t.stat = none) :
    ∃ calls, h.fetch platform disk t req = (calls ++ [.setStatus 500 []], []) := by
  unfold delivered at unread
  rw [cacheable_stat] at unread
  unfold fetch
  rw [if_neg get]
  cases opened : disk.fopen t.actualPath with
  | none => exact ⟨_, rfl⟩
  | some content =>
    have failed : h.cacheEnabled t = true ∧ content.length < t.stat.size := by
      simpa [opened] using unread
    simp only [if_pos failed.1, if_pos failed.2]
    exact ⟨_, rfl⟩

theorem statusSet_okCalls (early : Early.Calls t.calls) :
    statusSet (h.okCalls platform t) = 200 := by
  unfold okCalls
  rw [statusSet_append]
  split
  · rw [status_optional]
    exact (headerSet_missCalls h platform early).1
  · exact (headerSet_missCalls h platform early).1

theorem headerSet_okCalls_length (h : StaticFiles) (platform : Platform)
    (early : Early.Calls t.calls) : headerSet (h.okCalls platform t) ContentLength.codeToName =
      if h.cacheEnabled t = true ∧ h.Masks .ContentLength then some (ascii "MISS")
      else some (Numeral.print 10 t.stat.size) := by
  have length := (headerSet_missCalls h platform early).2.2.1
  unfold okCalls
  rw [headerSet_append, length]
  by_cases enabled : h.cacheEnabled t = true
  · rw [if_pos enabled, headerSet_cacheHeader h _ (by decide)]
    by_cases masks : h.Masks .ContentLength <;> simp [enabled, masks]
  · simp [enabled]

theorem fetch_status (h : StaticFiles) (platform : Platform) (disk : Disk) (req : HttpRequest)
    (early : Early.Calls t.calls) : statusSet (h.fetch platform disk t req).1 = 200 ∨
      statusSet (h.fetch platform disk t req).1 = 500 := by
  by_cases get : req.method = .head
  · unfold fetch
    rw [if_pos get]
    exact .inl (headerSet_missCalls h platform early).1
  cases read : h.delivered disk t.actualPath t.stat with
  | some body =>
    rw [fetch_some get read]
    exact .inl (statusSet_okCalls early)
  | none =>
    obtain ⟨calls, failed⟩ := fetch_none platform get read
    rw [failed]
    exact .inr (statusSet_append ..)

def present (value : Bytes) : Option Bytes := if value = [] then none else some value

theorem present_inj : present value = present value' ↔ value = value' := by
  unfold present
  by_cases empty : value = [] <;> by_cases empty' : value' = [] <;> simp [empty, empty']

theorem view_hit (early : Early.Calls t.calls) (named : ∀ code ∈ bodyCodes, ¬ h.Masks code)
    (node : CacheNode) (body : Bytes) : view (h.hitCalls t node, body) =
      { status := 200
        contentType := some node.mimeType
        contentEncoding := present node.contentEncoding
        contentLength := some (Numeral.print 10 node.data.length)
        body := body } := by
  obtain ⟨status, type, length, encoding⟩ := headerSet_hitCalls h early node
  rw [if_neg (named _ (by decide))] at type length encoding
  rw [view_eq, status, type, length, encoding]
  rfl

theorem view_uncached (found : h.target platform disk req params = .ok t)
    (determined : Determined content disk) : view (h.uncached.fetch platform disk t req) =
      { status := 200
        contentType := some (mimeType (platform.extension t.filePath) h.opts.mimeTypes)
        contentEncoding := present t.selectedEncoding
        contentLength := some (Numeral.print 10 t.stat.size)
        body :=
          if req.method = .head then [] else content t.actualPath t.stat.mtime t.stat.size } := by
  obtain ⟨n, there, regular⟩ := target_stat found
  obtain ⟨length, opened⟩ := determined n _ _ there regular
  obtain ⟨status, type, counted, encoding⟩ :=
    headerSet_missCalls h.uncached platform (target_calls found)
  have whole : h.uncached.fetch platform disk t req = (h.uncached.missCalls platform t,
      if req.method = .head then [] else content t.actualPath t.stat.mtime t.stat.size) := by
    have disabled : h.uncached.cacheEnabled t = false := rfl
    have all : (content t.actualPath t.stat.mtime t.stat.size).take t.stat.size =
        content t.actualPath t.stat.mtime t.stat.size := List.take_of_length_le length.le
    unfold fetch
    split
    · rfl
    · simp [opened, disabled, all]
  rw [whole, view_eq, status, type, counted, encoding]
  rfl

theorem get_ne_head : HttpMethod.get ≠ .head := by decide

def asking (acceptEncoding : Bytes) : HttpRequest where
  method := .get
  headers := [(AcceptEncoding.codeToName, .ofCode .AcceptEncoding acceptEncoding)]

section Runs
variable {R : Type} [DecidableEq R] {s u : State R} {labels : List (Action R)}

structure Filled (h : StaticFiles) (platform : Platform) (labels : List (Action R))
    (node : CacheNode) (disk : Disk) (t : Target) : Prop where
  asked : ∃ r req params, .request r req params disk ∈ labels ∧
    h.target platform disk req params = .ok t ∧ filled disk t req = some node.data
  made : ∃ now, node = h.cacheNode platform disk t now node.data

omit [DecidableEq R] in
theorem Filled.mono (filled : Filled h platform labels node disk t) (more : List (Action R)) :
    Filled h platform (labels ++ more) node disk t := by
  obtain ⟨⟨r, req, params, mem, rest⟩, made⟩ := filled
  exact ⟨⟨r, req, params, List.mem_append_left _ mem, rest⟩, made⟩

omit [DecidableEq R] in
theorem Filled.fields (filled : Filled h platform labels node disk t) : node.key = t.actualPath ∧
      node.mimeType = mimeType (platform.extension t.filePath) h.opts.mimeTypes ∧
      node.contentEncoding = t.selectedEncoding := by
  obtain ⟨-, now, made⟩ := filled
  rw [made]
  exact ⟨rfl, rfl, rfl⟩

omit [DecidableEq R] in
theorem Filled.data (filled : Filled h platform labels node disk t)
    (determined : Determined content disk) :
    node.data = content t.actualPath t.stat.mtime t.stat.size ∧ node.data.length = t.stat.size := by
  obtain ⟨⟨r, req, params, -, found, filled⟩, -⟩ := filled
  obtain ⟨n, there, regular⟩ := target_stat found
  obtain ⟨length, opened⟩ := determined n _ _ there regular
  obtain ⟨-, content', opened', -, data⟩ := filled_eq_some_iff.mp filled
  cases opened.symm.trans opened'
  rw [List.take_of_length_le length.le] at data
  exact ⟨data, by rw [data, length]⟩

theorem filled_of_run (run : Reaches h platform labels s) :
    Inv s ∧ ∀ entry ∈ s.cache.lru, ∃ disk t, Filled h platform labels entry.2 disk t := by
  induction run with
  | refl => exact ⟨.start, nofun⟩
  | @next labels s label u _ _ took ih =>
    obtain ⟨inv, nodes⟩ := ih
    refine ⟨inv.step took, fun entry mem => ?_⟩
    have old : entry ∈ s.cache.lru →
        ∃ disk t, Filled h platform (labels ++ [label]) entry.2 disk t := by
      intro mem
      obtain ⟨disk, t, filled⟩ := nodes entry mem
      exact ⟨disk, t, filled.mono _⟩
    rcases step_cases took with ⟨r, req, params, disk, rfl, -, rfl⟩ |
      ⟨-, ⟨r, phase, data, body, -, rfl⟩ | ⟨later, rfl⟩⟩
    · rw [cache_begin] at mem
      unfold handle at mem
      split at mem
      · exact old mem
      rename_i t found
      rcases serve_nodes inv.sound mem with mem | ⟨data, filled, made⟩
      · exact old mem
      · have same : entry.2.data = data := by rw [made]; rfl
        rw [← same] at filled made
        exact ⟨disk, t, ⟨r, req, params, by simp, found, filled⟩, _, made⟩
    · exact old mem
    · exact old mem

theorem target_of_status (answered : h.answer platform disk req params now c = some a)
    (ok : (view a).status = 200) : ∃ t, h.target platform disk req params = .ok t := by
  cases found : h.target platform disk req params with
  | ok t => exact ⟨t, rfl⟩
  | error early =>
    simp only [answer, found] at answered
    cases early with
    | thrown => cases answered
    | ends calls =>
      cases answered
      obtain ⟨before, code, known, rfl, -⟩ := target_error found
      have status : statusSet (before ++ [.setStatus code []]) = code := statusSet_append ..
      simp only [List.mem_cons, List.not_mem_nil, or_false] at known
      rcases known with rfl | rfl | rfl <;> rw [view_status status (by decide)] at ok <;> cases ok

end Runs

end StaticFiles

end Nitrocoro.Http
