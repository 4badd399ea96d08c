import Nitrocoro.Http.CookieProofs
import Nitrocoro.Http.Outgoing
import Nitrocoro.Http.ResponseProofs

/-! What a response puts on the wire: one head, made from what was set before it, and a body in
the framing that the head announces. -/
namespace Nitrocoro.Http
open Text NameCode
open List hiding length

structure GoodPair (pair : Bytes × Bytes) : Prop where
  token : isValidToken pair.1
  text : HeaderText pair.2

structure GoodEntry (entry : Bytes × HttpHeader) : Prop where
  token : isValidToken entry.1
  lower : toLower entry.1 = entry.1
  header : entry.2 = .ofName entry.1 entry.2.value
  text : HeaderText entry.2.value
  notCookie : entry.1 ≠ SetCookie.codeToName

theorem GoodEntry.header_name (good : GoodEntry entry) : entry.2.name = entry.1 := by
  rw [good.header]
  exact good.lower

theorem GoodEntry.ofName (token : isValidToken name) (text : HeaderText value)
    (notCookie : toLower name ≠ SetCookie.codeToName) :
    GoodEntry (toLower name, .ofName name value) where
  token := token_toLower token
  lower := toLower_toLower name
  header := by simp only [HttpHeader.ofName, toLower_toLower]
  text := text
  notCookie := notCookie

theorem token_codeToName {code : NameCode} (known : code ≠ .Unknown) :
    isValidToken code.codeToName := by
  have kept : ∀ c : UInt8, (c = 45 || (97 ≤ c && c ≤ 122)) →
      (32 < c && c < 127 && c ∉ separators) := forall_byte (by decide +kernel)
  obtain ⟨-, -, nonempty, letters⟩ := table_listed _ (mem_table known)
  simp only [isValidToken, Bool.and_eq_true, all_eq_true, decide_eq_true_eq] at letters kept ⊢
  exact ⟨nonempty, fun c mem => kept c (letters c mem)⟩

structure Sendable (data : HttpResponse) : Prop where
  version : data.version = .http11
  status : 100 ≤ data.statusCode ∧ data.statusCode ≤ 999
  reason : 10 ∉ data.statusReason
  headers : ∀ entry ∈ data.headers, GoodEntry entry
  cookies : ∀ cookie ∈ data.cookies, cookie.Good

theorem Sendable.setHeader {o : OutgoingResponse} (sendable : Sendable o.data)
    (good : GoodEntry (header.name, header)) : Sendable (o.setHeader header).data where
  version := sendable.version
  status := sendable.status
  reason := sendable.reason
  headers := by
    intro entry mem
    rcases OrderedMap.mem_insertOrAssign mem with rfl | mem
    · exact good
    · exact sendable.headers entry mem
  cookies := sendable.cookies

theorem exists_fields (pairs : List (Bytes × Bytes)) (good : ∀ pair ∈ pairs, GoodPair pair) :
    ∃ fields : List Field, fields.map (fun f => (f.name, f.value)) = pairs ∧
      fields.flatMap (fun f => f.line ++ crlf) =
        pairs.flatMap fun pair => headerLine pair.1 pair.2 := by
  induction pairs with
  | nil => exact ⟨[], rfl, rfl⟩
  | cons pair pairs ih =>
    obtain ⟨token, text⟩ := good pair mem_cons_self
    obtain ⟨fields, same, lines⟩ := ih fun p mem => good p (mem_cons_of_mem _ mem)
    let f : Field :=
      { name := pair.1, lead := 1, value := pair.2, trail := 0, token
        trimmed := text.trimmed, single := oneLine_of_not_mem text.lf }
    have line : f.line ++ crlf = headerLine pair.1 pair.2 := by
      simp [f, Field.line, Field.raw, headerLine, ascii]
    exact ⟨f :: fields, by simp [same, f], by simp only [flatMap_cons, line, lines]⟩

namespace OutgoingResponse
variable {env : Env} {o : OutgoingResponse}

def ownPairs (headers : HttpHeaderMap) : List (Bytes × Bytes) :=
  headers.map fun entry => (entry.2.name, entry.2.value)

def cookiePairs (cookies : List Cookie) : List (Bytes × Bytes) :=
  cookies.map fun cookie => (ascii "Set-Cookie", cookie.toString)

def addedPairs (env : Env) (o : OutgoingResponse) : List (Bytes × Bytes) :=
  (if o.sendDateHeader ∧ o.data.headers.lookup Date.codeToName = none then
    [(ascii "Date", env.date)] else []) ++
  if o.data.headers.lookup Connection.codeToName = none then
    if o.data.shouldClose then [(ascii "Connection", ascii "close")]
    else if o.data.version = .http10 then [(ascii "Connection", ascii "keep-alive")] else []
  else []

def headPairs (env : Env) (o : OutgoingResponse) : List (Bytes × Bytes) :=
  ownPairs o.data.headers ++ (cookiePairs o.data.cookies ++ o.addedPairs env)

theorem mem_addedPairs (mem : pair ∈ o.addedPairs env) :
    pair = (ascii "Date", env.date) ∨ pair = (ascii "Connection", ascii "close") ∨
      pair = (ascii "Connection", ascii "keep-alive") := by
  simp only [addedPairs, mem_append] at mem
  rcases mem with mem | mem
  · split at mem
    · exact .inl (mem_singleton.mp mem)
    · cases mem
  split at mem
  · split at mem
    · exact .inr (.inl (mem_singleton.mp mem))
    split at mem
    · exact .inr (.inr (mem_singleton.mp mem))
    · cases mem
  · cases mem

theorem good_headPairs (good : Sendable o.data) (date : HeaderText env.date) :
    ∀ pair ∈ o.headPairs env, GoodPair pair := by
  intro pair mem
  simp only [headPairs, ownPairs, cookiePairs, mem_append, mem_map] at mem
  rcases mem with ⟨entry, mem, rfl⟩ | ⟨cookie, mem, rfl⟩ | mem
  · have entry := good.headers entry mem
    exact ⟨entry.header_name ▸ entry.token, entry.text⟩
  · exact ⟨(by decide : isValidToken (ascii "Set-Cookie")),
      Cookie.toString_text (good.cookies cookie mem)⟩
  · rcases mem_addedPairs mem with rfl | rfl | rfl
    · exact ⟨(by decide : isValidToken (ascii "Date")), date⟩
    · exact ⟨by decide, by decide, by decide, by decide⟩
    · exact ⟨by decide, by decide, by decide, by decide⟩

def sentReason (data : HttpResponse) : Bytes :=
  if data.statusReason = [] then getDefaultReason data.statusCode else data.statusReason

theorem clean_getDefaultReason (code : Nat) : 10 ∉ getDefaultReason code := by
  have table : ∀ entry ∈ defaultReasons, 10 ∉ ascii entry.2 := by
    repeat refine forall_mem_cons.mpr ⟨not_mem_ascii (by decide), ?_⟩
    exact nofun
  unfold getDefaultReason
  cases hit : defaultReasons.lookup code with
  | none => decide
  | some reason =>
    exact table (code, reason) (OrderedMap.mem_of_lookup hit)

theorem clean_sentReason (good : Sendable o.data) : 10 ∉ sentReason o.data := by
  unfold sentReason
  split
  · exact clean_getDefaultReason _
  · exact good.reason

theorem buildHeaders_eq (env : Env) (o : OutgoingResponse) :
    o.buildHeaders env = o.data.statusLine ++ crlf ++
      (o.headPairs env).flatMap fun pair => headerLine pair.1 pair.2 := by
  have added : o.data.dateLine env o.sendDateHeader ++ o.data.connectionLine =
      (o.addedPairs env).flatMap fun pair => headerLine pair.1 pair.2 := by
    simp only [HttpResponse.dateLine, HttpResponse.connectionLine, addedPairs, flatMap_append]
    congr 1
    · split <;> simp
    · split
      · split
        · simp
        · split <;> simp
      · rfl
  simp only [Outgoing.buildHeaders, MessageKind.buildHeaders, HttpResponse.buildHeaders, headPairs,
    ownPairs, cookiePairs, flatMap_append, append_assoc, added, flatMap_map]

def receivedEntry (pair : Bytes × Bytes) : Bytes × HttpHeader :=
  (toLower pair.1, .ofName pair.1 pair.2)

def IsCookie (pair : Bytes × Bytes) : Prop := toLower pair.1 = SetCookie.codeToName

instance : DecidablePred IsCookie := fun _ => inferInstanceAs (Decidable (_ = _))

theorem not_isCookie_own (good : Sendable o.data) :
    ∀ pair ∈ ownPairs o.data.headers, ¬ IsCookie pair := by
  intro pair mem
  obtain ⟨entry, member, rfl⟩ := mem_map.mp mem
  have entry := good.headers entry member
  rw [IsCookie, entry.header_name, entry.lower]
  exact entry.notCookie

theorem isCookie_cookiePairs (cookies : List Cookie) :
    ∀ pair ∈ cookiePairs cookies, IsCookie pair := by
  intro pair mem
  obtain ⟨-, -, rfl⟩ := mem_map.mp mem
  exact (by decide : toLower (ascii "Set-Cookie") = SetCookie.codeToName)

theorem not_isCookie_added : ∀ pair ∈ o.addedPairs env, ¬ IsCookie pair := by
  intro pair mem
  rcases mem_addedPairs mem with rfl | rfl | rfl
  · exact (by decide : toLower (ascii "Date") ≠ SetCookie.codeToName)
  · decide
  · decide

theorem filter_cookies (env : Env) (good : Sendable o.data) :
    (o.headPairs env).filter IsCookie = cookiePairs o.data.cookies := by
  rw [headPairs, filter_append, filter_append,
    filter_eq_nil_iff.mpr (by simpa using not_isCookie_own good),
    filter_eq_self.mpr (by simpa using isCookie_cookiePairs o.data.cookies),
    filter_eq_nil_iff.mpr (by simpa using not_isCookie_added), nil_append,
    append_nil]

theorem filter_headers (good : Sendable o.data) :
    ((o.headPairs env).filter fun pair => ¬ IsCookie pair) =
      ownPairs o.data.headers ++ o.addedPairs env := by
  rw [headPairs, filter_append, filter_append,
    filter_eq_self.mpr (by simpa using not_isCookie_own good),
    filter_eq_nil_iff.mpr (by simpa using isCookie_cookiePairs o.data.cookies),
    filter_eq_self.mpr (by simpa using not_isCookie_added), nil_append]

theorem map_receivedEntry_own (good : Sendable o.data) :
    (ownPairs o.data.headers).map receivedEntry = o.data.headers := by
  rw [ownPairs, map_map]
  refine (map_congr_left fun entry mem => ?_).trans (map_id _)
  have entry := good.headers entry mem
  simp only [Function.comp_apply, receivedEntry, entry.header_name, entry.lower, ← entry.header]
  rfl

section received
variable {fields : List Field} (good : Sendable o.data)
  (written : fields.map (fun f => (f.name, f.value)) = o.headPairs env)
include good written

theorem lookup_received (name : Bytes) : (collect .SetCookie fields []).lookup name =
      (o.data.headers.lookup name).or (((o.addedPairs env).map receivedEntry).lookup name) := by
  have kept : (fields.filter fun f => ¬ f.Is .SetCookie).map Field.entry =
      ((o.headPairs env).filter fun pair => ¬ IsCookie pair).map receivedEntry := by
    rw [← written, filter_map, map_map]
    rfl
  rw [lookup_collect, kept, filter_headers good, map_append, map_receivedEntry_own good,
    lookup_append]

theorem cookies_received : collectCookies fields [] = o.data.cookies := by
  have kept : (fields.filter (Field.Is .SetCookie)).map (fun f => (f.name, f.value)) =
      cookiePairs o.data.cookies := by
    rw [← filter_cookies env good, ← written, filter_map]
    rfl
  have read : ∀ (cookies before : List Cookie), (∀ cookie ∈ cookies, cookie.Good) →
      (cookiePairs cookies).foldl (fun l pair => ResponseParser.parseCookies pair.2 l) before =
        before ++ cookies := by
    intro cookies
    induction cookies with
    | nil => simp [cookiePairs]
    | cons cookie cookies ih =>
      intro before all
      have first := all cookie mem_cons_self
      have one : ResponseParser.parseCookies cookie.toString before = before ++ [cookie] := by
        simp only [ResponseParser.parseCookies, Cookie.fromString_toString first,
          if_neg first.named]
      have := ih (before ++ [cookie]) fun c mem => all c (mem_cons_of_mem _ mem)
      simpa [cookiePairs, one] using this
  have all := read o.data.cookies [] good.cookies
  rwa [← kept, foldl_map] at all

end received

theorem lookup_added (notDate : name ≠ Date.codeToName)
    (notConnection : name ≠ Connection.codeToName) :
    ((o.addedPairs env).map receivedEntry).lookup name = none := by
  rw [lookup_eq_none_iff]
  intro entry mem
  obtain ⟨pair, member, rfl⟩ := mem_map.mp mem
  have lower : toLower (ascii "Connection") = Connection.codeToName := by decide
  rcases mem_addedPairs member with rfl | rfl | rfl
  · have lower : toLower (ascii "Date") = Date.codeToName := by decide
    simpa [receivedEntry, lower] using notDate
  · simpa [receivedEntry, lower] using notConnection
  · simpa [receivedEntry, lower] using notConnection

theorem exists_head (good : Sendable o.data) (date : HeaderText env.date) :
    ∃ fields : List Field, fields.map (fun f => (f.name, f.value)) = o.headPairs env ∧
      o.buildHeaders env ++ crlf = HeadReader.encodeLines
        (responseLines o.data.statusCode (sentReason o.data) fields) := by
  obtain ⟨fields, written, lines⟩ := exists_fields _ (good_headPairs good date)
  refine ⟨fields, written, ?_⟩
  have status : o.data.statusLine = ascii "HTTP/1.1" ++ 32 ::
      (Numeral.print 10 o.data.statusCode ++ 32 :: sentReason o.data) := by
    simp [HttpResponse.statusLine, good.version, versionString, sentReason, ascii]
  rw [buildHeaders_eq, ← lines, status]
  simp [HeadReader.encodeLines, responseLines, flatMap_map]

structure Received (data message : HttpResponse) : Prop where
  status : message.statusCode = data.statusCode
  cookies : message.cookies = data.cookies
  own : ∀ name header, data.headers.lookup name = some header →
    message.headers.lookup name = some header
  others : ∀ name, name ≠ Date.codeToName → name ≠ Connection.codeToName →
    message.headers.lookup name = data.headers.lookup name

/-- The head of a response is received as it was sent, and the body is left to the reader that
the head announces. -/
theorem readResponse_sent (good : Sendable o.data) (date : HeaderText env.date)
    (framed : messageFraming o.data.headers = .ok (some (mode, length))) {c : Source}
    (valid : c.Valid) (whole : c.unread = o.buildHeaders env ++ (crlf ++ rest)) :
    ∃ (message : HttpResponse) (d : Source), Received o.data message ∧ d.Valid ∧ d.unread = rest ∧
      readResponse false c =
        (readToEnd {} (.create mode length) d).map fun r => (message, r.1.view) := by
  obtain ⟨fields, written, head⟩ := exists_head good date
  have lookup := lookup_received good written
  have same : messageFraming (collect .SetCookie fields []) = messageFraming o.data.headers := by
    have coding := lookup TransferEncoding.codeToName
    have counted := lookup ContentLength.codeToName
    rw [lookup_added (by decide) (by decide), Option.or_none] at coding counted
    simp only [messageFraming, contentLengthFraming, coding, counted]
  rw [← append_assoc, head] at whole
  obtain ⟨d, valid', rest', read⟩ := readResponse_head good.status (clean_sentReason good) fields
    (same.trans framed) valid whole
  refine ⟨parsedResponse o.data.statusCode (sentReason o.data) fields mode length, d,
    ⟨rfl, cookies_received good written, ?_, ?_⟩, valid', rest', read⟩
  · intro name header set
    apply (lookup name).trans
    rw [set, Option.some_or]
  · intro name notDate notConnection
    apply (lookup name).trans
    rw [lookup_added notDate notConnection, Option.or_none]

end OutgoingResponse
end Nitrocoro.Http
