import Nitrocoro.Http.OutgoingMessage
import Nitrocoro.Http.OutgoingProofs

/-! What a client reads is what the handler of the server said: the status, the headers and the
cookies that were set before the head went out, and all the data that was written. -/
namespace Nitrocoro.Http
open Text List Option BodyWriter NameCode
open Numeral (print print_length_le_iff value_print print_digits)
open OutgoingResponse (readResponse_sent)

def Call.isWrite : Call → Bool
  | .write _ => true
  | _ => false

def Call.bytes : Call → Bytes
  | .write data => data
  | _ => []

def written (calls : List Call) (last : Ending) : Bytes := calls.flatMap Call.bytes ++ last.bytes

/-- No data is longer than a `size_t` counts, and none that goes out as a chunk longer than the
writer's buffer for its size has room for. -/
structure Moderate (calls : List Call) (last : Ending) : Prop where
  writes : ∀ data, .write data ∈ calls → data.length < 2 ^ 52
  counted : last.bytes.length < 2 ^ 64
  chunked : calls.any Call.isWrite → last.bytes.length < 2 ^ 52

theorem Moderate.tail {last : Ending} (moderate : Moderate (call :: calls) last) :
    Moderate calls last where
  writes data mem := moderate.writes data (mem_cons_of_mem _ mem)
  counted := moderate.counted
  chunked any := moderate.chunked (by simp [any])

theorem Call.bytes_message (call : Call) : call.message.bytes = call.bytes := by
  cases call <;> rfl

theorem Moderate.messages {last : Ending} (moderate : Moderate calls last) :
    ∀ call ∈ calls.map Call.message, call.bytes.length < 2 ^ 52 := by
  intro call mem
  obtain ⟨call, here, rfl⟩ := mem_map.mp mem
  rw [call.bytes_message]
  cases call with
  | write data => exact moderate.writes data here
  | _ => exact Nat.two_pow_pos 52

/-- The names that a handler may not set: the framing is up to the stream, and cookies are added
by a call of their own. -/
def reservedNames : List Bytes :=
  [ContentLength.codeToName, TransferEncoding.codeToName, SetCookie.codeToName]

namespace Call

def Good : Call → Prop
  | .setStatus code reason => (100 ≤ code ∧ code ≤ 999) ∧ 13 ∉ reason ∧ 10 ∉ reason
  | .setHeader name value => isValidToken name ∧ toLower name ∉ reservedNames ∧ HeaderText value
  | .setHeaderCode code value =>
    code ≠ .Unknown ∧ code.codeToName ∉ reservedNames ∧ HeaderText value
  | .addCookie cookie => cookie.Good
  | .setVersion version => version = .http11
  | .setCloseConnection _ => True
  | .write _ => True

theorem keepsLength_messages {calls : List Call} (good : ∀ call ∈ calls, call.Good) :
    ∀ call ∈ calls.map Call.message, call.KeepsLength := by
  intro message mem
  obtain ⟨call, here, rfl⟩ := mem_map.mp mem
  have free {name : Bytes} (free : name ∉ reservedNames) :
      name ≠ ContentLength.codeToName := by
    rintro rfl
    exact free mem_cons_self
  cases call with
  | setHeader | setHeaderCode => exact free (good _ here).2.1
  | _ => trivial

def status? : Call → Option Nat
  | .setStatus code _ => some code
  | _ => none

def cookie? : Call → Option Cookie
  | .addCookie cookie => some cookie
  | _ => none

def header? : Call → Option (Bytes × Bytes)
  | .setHeader name value => some (toLower name, value)
  | .setHeaderCode code value => some (code.codeToName, value)
  | _ => none

end Call

def settings (calls : List Call) : List Call := calls.takeWhile fun call => !call.isWrite

def statusSet (calls : List Call) : Nat := ((calls.filterMap Call.status?).getLast?).getD 200

def cookiesSet (calls : List Call) : List Cookie := calls.filterMap Call.cookie?

def headerSet (calls : List Call) (name : Bytes) : Option Bytes :=
  (calls.filterMap Call.header?).reverse.lookup name

section concat
variable (calls : List Call) (call : Call)

theorem statusSet_concat : statusSet (calls ++ [call]) = call.status?.getD (statusSet calls) := by
  rw [statusSet, filterMap_append, List.getLast?_append]
  cases status : call.status? with
  | none => simp only [filterMap_cons, status, filterMap_nil, List.getLast?_nil,
      none_or, getD_none, statusSet]
  | some code => simp only [filterMap_cons, status, filterMap_nil,
      List.getLast?_singleton, some_or, getD_some]

theorem cookiesSet_concat :
    cookiesSet (calls ++ [call]) = cookiesSet calls ++ call.cookie?.toList := by
  cases cookie : call.cookie? with
  | none | some => simp [cookie, cookiesSet]

theorem headerSet_concat (name : Bytes) : headerSet (calls ++ [call]) name =
    (call.header?.filter (fun pair => name == pair.1)).elim (headerSet calls name)
      fun pair => some pair.2 := by
  rw [headerSet, filterMap_append, reverse_append]
  cases header : call.header? with
  | none => simp [header, headerSet]
  | some pair =>
    obtain ⟨key, value⟩ := pair
    simp only [filterMap_cons, header, filterMap_nil, reverse_singleton,
      singleton_append, OrderedMap.lookup_cons_ite, filter_some]
    split <;> rfl

end concat

structure Configured (calls : List Call) (o : OutgoingResponse) : Prop where
  sendable : Sendable o.data
  unsent : o.headersSent = false
  writer : o.bodyWriter = none
  body : o.ignoreBody = false
  empty : o.bodyLength = 0
  status : o.data.statusCode = statusSet calls
  cookies : o.data.cookies = cookiesSet calls
  headers : ∀ name, o.data.headers.lookup name = (headerSet calls name).map (.ofName name)
  free : ∀ name ∈ reservedNames, o.data.headers.lookup name = none

namespace Configured
variable {calls : List Call} {call : Call} {o : OutgoingResponse} {env : Env} {last : Ending}

theorem lookup_setHeader (o : OutgoingResponse) (header : HttpHeader) (name : Bytes) :
    (o.setHeader header).data.headers.lookup name =
      if name == header.name then some header else o.data.headers.lookup name :=
  OrderedMap.lookup_insertOrAssign

theorem setHeader (configured : Configured calls o) (token : isValidToken key)
    (free : toLower key ∉ reservedNames) (text : HeaderText value)
    (sets : call.header? = some (toLower key, value)) (status : call.status? = none)
    (cookie : call.cookie? = none) :
    Configured (calls ++ [call]) (o.setHeader (.ofName key value)) where
  sendable := by
    apply configured.sendable.setHeader
    apply GoodEntry.ofName token text
    intro same
    exact free (by simp [same, reservedNames])
  unsent := configured.unsent
  writer := configured.writer
  body := configured.body
  empty := configured.empty
  status := by
    rw [statusSet_concat, status]
    exact configured.status
  cookies := by
    rw [cookiesSet_concat, cookie, toList_none, append_nil]
    exact configured.cookies
  headers := by
    intro name
    rw [lookup_setHeader, headerSet_concat, sets, filter_some, configured.headers]
    by_cases same : name == toLower key
    · have named : HttpHeader.ofName name value = .ofName key value := by
        rw [eq_of_beq same]
        simp only [HttpHeader.ofName, toLower_toLower]
      simp only [HttpHeader.name_ofName, same, if_true, elim_some, map_some, named]
    · simp only [HttpHeader.name_ofName, same, Bool.false_eq_true, if_false, elim_none]
  free := by
    intro name mem
    rw [lookup_setHeader, configured.free name mem]
    apply if_neg
    intro same
    have named : name = toLower key := eq_of_beq same
    exact free (named ▸ mem)

theorem update (configured : Configured calls o) (data : HttpResponse) (sendable : Sendable data)
    (same : data.headers = o.data.headers) (plain : call.header? = none)
    (status : data.statusCode = call.status?.getD o.data.statusCode)
    (cookies : data.cookies = o.data.cookies ++ call.cookie?.toList) :
    Configured (calls ++ [call]) { o with data } where
  sendable := sendable
  unsent := configured.unsent
  writer := configured.writer
  body := configured.body
  empty := configured.empty
  status := by rw [statusSet_concat, ← configured.status, status]
  cookies := by rw [cookiesSet_concat, ← configured.cookies, cookies]
  headers := by
    intro name
    rw [headerSet_concat, plain, same]
    exact configured.headers name
  free := by
    intro name mem
    rw [same]
    exact configured.free name mem

theorem step (env : Env) (configured : Configured calls o) (good : call.Good)
    (sets : call.isWrite = false) :
    ∃ o', o.call env call = (o', .ok []) ∧ Configured (calls ++ [call]) o' := by
  cases call with
  | write data => cases sets
  | setHeader name value =>
    obtain ⟨token, free, text⟩ := good
    exact ⟨_, rfl, configured.setHeader token free text rfl rfl rfl⟩
  | setHeaderCode code value =>
    obtain ⟨known, free, text⟩ := good
    have lower := toLower_codeToName known
    refine ⟨_, rfl, ?_⟩
    rw [HttpHeader.ofCode_eq_ofName known]
    refine configured.setHeader (token_codeToName known) (lower.symm ▸ free) text ?_ rfl rfl
    rw [lower]
    rfl
  | setStatus code reason =>
    obtain ⟨range, -, lf⟩ := good
    have code' : code % 2 ^ 16 = code := Nat.mod_eq_of_lt (by omega)
    obtain ⟨version, -, -, headers, cookies⟩ := configured.sendable
    refine ⟨_, rfl, configured.update _ ⟨version, ?_, ?_, headers, cookies⟩ rfl rfl code'
      (by simp [Call.cookie?, HttpResponse.setStatus])⟩
    · rwa [show (HttpResponse.setStatus code reason o.data).statusCode = code from code']
    · rw [HttpResponse.setStatus]
      split
      · exact OutgoingResponse.clean_getDefaultReason _
      · exact lf
  | addCookie cookie =>
    obtain ⟨version, status, reason, headers, cookies⟩ := configured.sendable
    refine ⟨_, rfl, configured.update _ ⟨version, status, reason, headers, ?_⟩ rfl rfl rfl rfl⟩
    intro added mem
    rcases mem_append.mp mem with mem | mem
    · exact cookies added mem
    · rw [mem_singleton.mp mem]
      exact good
  | setCloseConnection close =>
    obtain ⟨version, status, reason, headers, cookies⟩ := configured.sendable
    exact ⟨_, rfl, configured.update _ ⟨version, status, reason, headers, cookies⟩ rfl rfl rfl
      (by simp [Call.cookie?])⟩
  | setVersion version =>
    obtain ⟨-, status, reason, headers, cookies⟩ := configured.sendable
    exact ⟨_, rfl, configured.update _ ⟨good, status, reason, headers, cookies⟩ rfl rfl rfl
      (by simp [Call.cookie?])⟩

end Configured

inductive Emitted (env : Env) (o : OutgoingResponse) (body : Bytes) : Bytes → Prop where
  | counted : body.length < 2 ^ 64 → Emitted env o body
      ((o.setHeader (.ofCode .ContentLength (Numeral.print 10 body.length))).buildHeaders env ++
        (crlf ++ body))
  | chunked (chunks : List Chunk) : chunks.flatMap Chunk.data = body → Emitted env o body
      ((o.setHeader (.ofCode .TransferEncoding (ascii "chunked"))).buildHeaders env ++
        (crlf ++ (coding chunks).encode))

namespace Configured
variable {calls : List Call} {o : OutgoingResponse} {last : Ending} {data : Bytes}

theorem lengthFree (configured : Configured calls o) :
    o.data.headers.lookup ContentLength.codeToName = none :=
  configured.free _ (by simp [reservedNames])

theorem codingFree (configured : Configured calls o) :
    o.data.headers.lookup TransferEncoding.codeToName = none :=
  configured.free _ (by simp [reservedNames])

theorem unsized (configured : Configured calls o) : ¬o.headers.HasLength :=
  Option.not_isSome_iff_eq_none.mpr configured.lengthFree

theorem opening (configured : Configured calls o) : o.Opening :=
  ⟨configured.unsent, configured.writer⟩

theorem ending (env : Env) (configured : Configured calls o) (fits : last.bytes.length < 2 ^ 64) :
    Emitted env o last.bytes (wire (o.ending env last).2) := by
  have built : (o.sized last).buildHeaders env =
      (o.setHeader (.ofCode .ContentLength (print 10 last.bytes.length))).buildHeaders env := by
    unfold Outgoing.sized
    split
    case isTrue skips =>
      have empty : last.bytes = [] := skips.resolve_left (by simp [configured.body])
      rw [empty, Outgoing.counted_nil, Outgoing.measured, if_neg configured.unsized,
        configured.empty]
      rfl
    case isFalse => rfl
  rw [(Outgoing.ending_opening env configured.opening last).2, built, configured.body]
  exact .counted fits

theorem write (env : Env) (configured : Configured before o) (data : Bytes) (calls : List Call)
    (moderate : Moderate (.write data :: calls) last) :
    Emitted env o (written (.write data :: calls) last)
      (wire (o.events env (script (map Call.message (.write data :: calls)) last))) := by
  have free : ¬o.headers.FindsChunked := by
    simp [HttpHeaderMap.FindsChunked, show o.headers.lookup _ = none from configured.codingFree]
  have converts : o.headers.Converts := by
    simp [HttpHeaderMap.Converts, show o.headers.lookup _ = none from configured.lengthFree]
  have new : MessageKind.untilClose o.data = none := if_neg (by simp [configured.sendable.version])
  have start : MessageCall.atHead o.ignoreBody (map Call.message (.write data :: calls)) o.data =
      (o.data, data :: (calls.map Call.message).map MessageCall.bytes) :=
    if_pos ⟨configured.body, converts⟩
  have chunked : Outgoing.writerAt (o.data, data :: (calls.map Call.message).map MessageCall.bytes)
      = .chunked := by
    simp [Outgoing.writerAt, MessageKind.mode, configured.unsized, free, new, BodyWriter.create]
  obtain ⟨bytes, ⟨length, built⟩, sent, passes, -⟩ := Outgoing.sent_opening env configured.opening
    (map Call.message (.write data :: calls)) last
  have announced : MessageKind.announce o.data =
      (o.setHeader (.ofCode .TransferEncoding (ascii "chunked"))).data := by
    simp [MessageKind.announce, configured.unsized, free, new]
    rfl
  have head : (o.headState env (script (map Call.message (.write data :: calls)) last)).buildHeaders
      env = (o.setHeader (.ofCode .TransferEncoding (ascii "chunked"))).buildHeaders env := by
    rw [built, Outgoing.opened, start]
    exact congrArg (MessageKind.buildHeaders env o.sendDateHeader) announced
  rw [start, chunked, configured.body] at passes
  obtain ⟨chunks, rfl, whole⟩ := passes fun _ => ⟨moderate.messages, moderate.chunked rfl⟩
  rw [sent, start, chunked, head, ← encode_coding]
  apply Emitted.chunked
  have same : (calls.map Call.message).map MessageCall.bytes = calls.map Call.bytes := by
    simp [Call.bytes_message]
  rw [whole, same, written, flatMap_cons, append_assoc, flatMap_def]
  exact append_assoc ..

/-- A whole response sends one head, with the settings made so far, and one body. -/
theorem events (env : Env) (calls : List Call) (configured : Configured before o)
    (good : ∀ call ∈ calls, call.Good) (moderate : Moderate calls last) :
    ∃ o', Configured (before ++ settings calls) o' ∧ Emitted env o' (written calls last)
      (wire (o.events env (script (calls.map Call.message) last))) := by
  induction calls generalizing o before with
  | nil =>
    refine ⟨o, by simpa [settings] using configured, ?_⟩
    simpa [script, Outgoing.events, Outgoing.react, written] using
      configured.ending env moderate.counted
  | cons call calls ih =>
    cases writes : call.isWrite with
    | false =>
      have silent : call.bytes = [] := by
        cases call with
        | write data => cases writes
        | _ => rfl
      obtain ⟨o₁, called, configured'⟩ := configured.step env (good call mem_cons_self) writes
      obtain ⟨o', configured'', emitted⟩ := ih configured'
        (fun c mem => good c (mem_cons_of_mem _ mem)) moderate.tail
      have next : Outgoing.react env o (.early call.message) = (o₁, []) := by
        rw [Outgoing.react, show Outgoing.call env o call.message = _ from called]
        rfl
      refine ⟨o', ?_, ?_⟩
      · simpa [settings, writes] using configured''
      · simpa [written, silent, script, Outgoing.events, next] using emitted
    | true =>
      -- the head goes out, and the rest of the response is chunks
      cases call with
      | write data =>
        exact ⟨o, by simpa [settings, Call.isWrite] using configured,
          configured.write env data calls moderate⟩
      | _ => cases writes

end Configured

def addedNames : List Bytes :=
  [Date.codeToName, Connection.codeToName, ContentLength.codeToName, TransferEncoding.codeToName]

/-- The message says what these calls set, and nothing else but what the stream adds. -/
structure Delivered (calls : List Call) (message : HttpResponse) : Prop where
  status : message.statusCode = statusSet calls
  cookies : message.cookies = cookiesSet calls
  headers : ∀ name value, headerSet calls name = some value →
    message.headers.lookup name = some (.ofName name value)
  others : ∀ name, name ∉ addedNames → headerSet calls name = none →
    message.headers.lookup name = none

namespace Configured
variable {calls : List Call} {o : OutgoingResponse} {env : Env} {code : NameCode} {body : Bytes}

theorem sendable_framed (configured : Configured calls o) (known : code ≠ .Unknown)
    (framing : code ≠ .SetCookie) (text : HeaderText value) :
    Sendable (o.setHeader (.ofCode code value)).data := by
  have lower := toLower_codeToName known
  apply configured.sendable.setHeader
  have entry := GoodEntry.ofName (token_codeToName known) text (by
    rw [lower, ne_eq, ← nameToCode_eq_iff (by decide), (nameToCode_eq_iff known).mpr rfl]
    exact framing)
  rw [lower, ← HttpHeader.ofCode_eq_ofName known] at entry
  exact entry

theorem delivered (configured : Configured calls o) (reserved : code.codeToName ∈ reservedNames)
    (added : code.codeToName ∈ addedNames)
    (received : OutgoingResponse.Received (o.setHeader (.ofCode code value)).data message) :
    Delivered calls message where
  status := received.status.trans configured.status
  cookies := received.cookies.trans configured.cookies
  headers := by
    intro name v set
    apply received.own
    have stored : o.data.headers.lookup name = some (.ofName name v) := by
      rw [configured.headers, set, map_some]
    have other : ¬ (name == code.codeToName) := by
      intro same
      rw [eq_of_beq same, configured.free _ reserved] at stored
      cases stored
    rw [lookup_setHeader, stored]
    exact if_neg other
  others := by
    intro name free unset
    simp only [addedNames, mem_cons, not_or] at free
    have other : ¬ (name == code.codeToName) := by
      intro same
      simp_all [addedNames]
    rw [received.others name free.1 free.2.1, lookup_setHeader, configured.headers, unset]
    exact if_neg other

theorem framing_counted (configured : Configured calls o) (fits : n < 2 ^ 64) :
    messageFraming (o.setHeader (.ofCode .ContentLength (print 10 n))).data.headers =
      .ok (some (.contentLength, n)) := by
  have coding := lookup_setHeader o (.ofCode .ContentLength (print 10 n))
    TransferEncoding.codeToName
  have counted := lookup_setHeader o (.ofCode .ContentLength (print 10 n))
    ContentLength.codeToName
  have other : ¬ TransferEncoding.codeToName == ContentLength.codeToName := by
    decide
  rw [configured.codingFree] at coding
  exact messageFraming_counted (coding.trans (if_neg other)) (counted.trans (if_pos BEq.rfl))
    (print_digits (by decide) (by decide) n)
    (value_print (by decide) (by decide) n) fits

theorem framing_chunked (o : OutgoingResponse) :
    messageFraming (o.setHeader (.ofCode .TransferEncoding (ascii "chunked"))).data.headers =
      .ok (some (.chunked, 0)) := by
  have coding := lookup_setHeader o (.ofCode .TransferEncoding (ascii "chunked"))
    TransferEncoding.codeToName
  exact messageFraming_chunked (coding.trans (if_pos BEq.rfl)) (by decide)

theorem readResponse (configured : Configured calls o) (date : HeaderText env.date)
    (emitted : Emitted env o body bytes) {c : Source} (valid : c.Valid) (whole : c.unread = bytes) :
    ∃ message, readResponse false c = .ok (message, body) ∧ Delivered calls message := by
  cases emitted with
  | counted fits =>
    obtain ⟨message, d, received, valid', rest, read⟩ := readResponse_sent
      (configured.sendable_framed (by decide) (by decide) (Plain.print body.length).toHeaderText) date
      (configured.framing_counted fits) valid whole
    have carries : Carries [] (.create .contentLength body.length) d body :=
      Carries.create_contentLength valid' (rest.trans (append_nil _).symm)
    obtain ⟨buf, b, e, ended, view⟩ := readToEnd_spec
      (b := .create .contentLength body.length) carries rfl
    refine ⟨message, ?_, configured.delivered (by decide) (by decide) received⟩
    rw [read, ended, ← view]
    rfl
  | chunked chunks data =>
    obtain ⟨message, d, received, valid', rest, read⟩ := readResponse_sent
      (configured.sendable_framed (by decide) (by decide) ⟨by decide, by decide, by decide⟩) date
      (framing_chunked o) valid whole
    have moderate : (coding chunks).Moderate := ⟨Nat.zero_le _, nofun⟩
    have carries : Carries [] (.create .chunked 0) d (coding chunks).data :=
      Carries.size (coding chunks) moderate valid' (rest.trans (append_nil _).symm)
    obtain ⟨buf, b, e, ended, view⟩ := readToEnd_spec (b := .create .chunked 0) carries rfl
    refine ⟨message, ?_, configured.delivered (by decide) (by decide) received⟩
    rw [read, ended, ← data]
    exact congrArg (fun v => Except.ok (message, v)) view

theorem create (sendDate : Bool) : Configured [] (.create false sendDate) where
  sendable := ⟨rfl, (by decide : 100 ≤ 200 ∧ 200 ≤ 999), not_mem_nil, nofun, nofun⟩
  unsent := rfl
  writer := rfl
  body := rfl
  empty := rfl
  status := rfl
  cookies := rfl
  headers := fun _ => rfl
  free := fun _ _ => rfl

end Configured

/-- Whatever calls a handler makes on a response, a client that reads its bytes in whatever pieces
they come gets what was set before the head went out and all the data that was written. -/
theorem readResponse_respond (env : Env) (date : HeaderText env.date) (sendDate : Bool)
    (calls : List Call) (last : Ending) (good : ∀ call ∈ calls, call.Good)
    (moderate : Moderate calls last) (chops : List Nat) : ∃ events message,
      (OutgoingResponse.create false sendDate).respond env last calls = .ok events ∧
      readResponse false { stream := { rest := wire events, chops } } =
        .ok (message, written calls last) ∧
      Delivered (settings calls) message := by
  let start : OutgoingResponse := .create false sendDate
  obtain ⟨o, configured, emitted⟩ := (Configured.create sendDate).events env calls good moderate
  have responded : start.respond env last calls = .ok _ := Outgoing.respond_fluent env
    (fun _ => (Configured.create sendDate).unsized) (Call.keepsLength_messages good)
  obtain ⟨message, read, delivered⟩ := configured.readResponse date emitted
    (c := { stream := { rest := wire _, chops } }) ⟨Nat.le_refl _, Nat.le_refl _⟩ rfl
  exact ⟨_, message, responded, read, delivered⟩

def sampleCalls : List Call :=
  [.setStatus 404 [], .setHeader (ascii "X-Id") (ascii "7"), .addCookie { name := ascii "a" },
    .write (ascii "hi"), .write []]

theorem readResponse_respond_sample : ∃ events message,
    (OutgoingResponse.create false true).respond {} (.data (ascii "!")) sampleCalls = .ok events ∧
    readResponse false { stream := { rest := wire events, chops := [3] } } =
      .ok (message, ascii "hi!") ∧
    message.statusCode = 404 ∧ message.cookies = [{ name := ascii "a" }] := by
  have good : ∀ call ∈ sampleCalls, call.Good := by
    intro call mem
    simp only [sampleCalls, mem_cons, not_mem_nil, or_false] at mem
    rcases mem with rfl | rfl | rfl | rfl | rfl
    · exact ⟨by decide, by decide, by decide⟩
    · exact ⟨by decide, by decide, by decide, by decide, by decide⟩
    · exact ⟨by decide, by decide, by decide, by decide, by decide, by decide, by decide, by decide⟩
    · trivial
    · trivial
  have moderate : Moderate sampleCalls (.data (ascii "!")) := by
    refine ⟨fun data mem => ?_, by decide, fun _ => by decide⟩
    simp only [sampleCalls, mem_cons, Call.write.injEq, reduceCtorEq, not_mem_nil,
      false_or, or_false] at mem
    rcases mem with rfl | rfl <;> decide
  obtain ⟨events, message, responded, read, delivered⟩ := readResponse_respond {}
    ⟨by decide, by decide, by decide⟩ true sampleCalls (.data (ascii "!")) good moderate [3]
  exact ⟨events, message, responded, read, delivered.status, delivered.cookies⟩

end Nitrocoro.Http
