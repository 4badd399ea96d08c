import Nitrocoro.Http.Faults
import Nitrocoro.Http.OutgoingProofs
import Nitrocoro.Http.ServerProofs

/-! What a response says about its connection, and what `handleConnection` does with it. The header
block is made from what the handler has set by then; the loop goes by the request alone. -/
namespace Nitrocoro.Http
open Text List OutgoingResponse HttpResponse NameCode

namespace HttpHeaderMap
variable {headers : HttpHeaderMap}

/-- A map that `setHeader` has built: in order, and the keys are the names in lower case. -/
structure Lawful (headers : HttpHeaderMap) : Prop where
  sorted : OrderedMap.Sorted headers
  named : ∀ entry ∈ headers, entry.2.name = entry.1
  lower : ∀ entry ∈ headers, toLower entry.1 = entry.1

theorem Lawful.nil : Lawful [] := ⟨List.Pairwise.nil, nofun, nofun⟩

theorem Lawful.insert (lawful : Lawful headers) {header : HttpHeader}
    (lower : toLower header.name = header.name) :
    Lawful (OrderedMap.insertOrAssign header.name header headers) where
  sorted := lawful.sorted.insertOrAssign
  named entry mem := by
    rcases OrderedMap.mem_insertOrAssign mem with rfl | old
    · rfl
    · exact lawful.named entry old
  lower entry mem := by
    rcases OrderedMap.mem_insertOrAssign mem with rfl | old
    · exact lower
    · exact lawful.lower entry old

end HttpHeaderMap

namespace HttpResponse

/-- What `data` says about the connection: the header that was set, or else the flag. -/
def Closing (data : HttpResponse) : Prop :=
  match data.headers.lookup Connection.codeToName with
  | some header => toLower header.value = ascii "close"
  | none => data.shouldClose = true

instance (data : HttpResponse) : Decidable data.Closing :=
  match found : data.headers.lookup Connection.codeToName with
  | some header =>
    decidable_of_iff (toLower header.value = ascii "close") (by simp [Closing, found])
  | none => decidable_of_iff (data.shouldClose = true) (by simp [Closing, found])

def EndsWithConnection (data : HttpResponse) : Prop :=
  ¬ data.headers.HasLength ∧ ¬ data.headers.FindsChunked ∧ data.version = .http10

instance (data : HttpResponse) : Decidable data.EndsWithConnection :=
  inferInstanceAs (Decidable (_ ∧ _ ∧ _))

/-- What the calls before the header block ask for. -/
def AsksClose (ignoreBody : Bool) (calls : List Call) (data : HttpResponse) : Prop :=
  let start := MessageCall.atHead ignoreBody (calls.map Call.message) data
  start.1.Closing ∨ start.2 ≠ [] ∧ start.1.EndsWithConnection

instance (ignoreBody : Bool) (calls : List Call) (data : HttpResponse) :
    Decidable (data.AsksClose ignoreBody calls) := inferInstanceAs (Decidable (_ ∨ _ ∧ _))

end HttpResponse

namespace OutgoingResponse
variable {env : Env} {o : OutgoingResponse}

def SaysClose (env : Env) (o : OutgoingResponse) : Prop :=
  ∃ line ∈ o.headPairs env, toLower line.1 = Connection.codeToName ∧
    toLower line.2 = ascii "close"

theorem own_line_iff {headers : HttpHeaderMap} (lawful : headers.Lawful) {name : Bytes}
    (P : Bytes → Prop) : (∃ line ∈ ownPairs headers, toLower line.1 = name ∧ P line.2) ↔
      ∃ header, headers.lookup name = some header ∧ P header.value := by
  constructor
  · rintro ⟨_, line, same, holds⟩
    obtain ⟨⟨key, header⟩, mem, rfl⟩ := mem_map.mp line
    have here : toLower header.name = key := by
      rw [lawful.named (key, header) mem]
      exact lawful.lower _ mem
    cases here.symm.trans same
    exact ⟨header, lawful.sorted.lookup_of_mem mem, holds⟩
  · rintro ⟨header, found, holds⟩
    have mem := lawful.sorted.lookup_eq_some_iff.mp found
    refine ⟨(header.name, header.value), mem_map.mpr ⟨_, mem, rfl⟩, ?_, holds⟩
    rw [lawful.named _ mem]
    exact lawful.lower _ mem

theorem added_line_iff (env : Env) (o : OutgoingResponse) : o.SaysClose env ↔
      (∃ line ∈ ownPairs o.data.headers, toLower line.1 = Connection.codeToName ∧
        toLower line.2 = ascii "close") ∨
      o.data.headers.lookup Connection.codeToName = none ∧ o.data.shouldClose = true := by
  have cookie : toLower (ascii "Set-Cookie") ≠ Connection.codeToName := by decide
  have date : toLower (ascii "Date") ≠ Connection.codeToName := by decide
  have connection : toLower (ascii "Connection") = Connection.codeToName := by decide
  constructor
  · rintro ⟨line, mem, named, closes⟩
    simp only [headPairs, addedPairs, mem_append] at mem
    rcases mem with own | cookies | dates | connections
    · exact .inl ⟨line, own, named, closes⟩
    · obtain ⟨_, -, rfl⟩ := mem_map.mp cookies
      exact absurd named cookie
    · split at dates
      · cases mem_singleton.mp dates
        exact absurd named date
      · cases dates
    split at connections
    · rename_i unset
      split at connections
      · rename_i flag
        exact .inr ⟨unset, flag⟩
      · split at connections
        · cases mem_singleton.mp connections
          exact absurd closes (by decide)
        · cases connections
    · cases connections
  · rintro (⟨line, own, named, closes⟩ | ⟨unset, flag⟩)
    · exact ⟨line, mem_append_left _ own, named, closes⟩
    · refine ⟨(ascii "Connection", ascii "close"), ?_, connection, by decide⟩
      simp only [headPairs, addedPairs, mem_append, if_pos unset, if_pos flag]
      exact .inr (.inr (.inr mem_cons_self))

theorem saysClose_iff (lawful : o.data.headers.Lawful) : o.SaysClose env ↔ o.data.Closing := by
  rw [added_line_iff, own_line_iff lawful (toLower · = ascii "close"), HttpResponse.Closing]
  cases o.data.headers.lookup Connection.codeToName with
  | some header => simp
  | none => simp

end OutgoingResponse

namespace Outgoing

theorem ending_ne_nil [MessageKind M] (env : Env) (last : Ending) (o : Outgoing M) :
    (o.ending env last).2 ≠ [] := by
  have finished (o : Outgoing M) : (o.finish env).2 ≠ [] := by simp [finish]
  cases last with
  | plain => exact finished o
  | data data =>
    simp only [ending, finishWith]
    split
    · exact finished _
    · rw [finishBody]
      split <;> simp

theorem events_headState [MessageKind M] {o : Outgoing M} (unsent : o.headersSent = false)
    (env : Env) (calls : List (MessageCall M)) (last : Ending) :
    ∃ data more, o.events env (script calls last) = .awaitPrev ::
      .send ((o.headState env (script calls last)).buildHeaders env ++ crlf ++ data) :: more := by
  induction calls generalizing o with
  | nil =>
    have effect := headEffect_react o env (.ending last)
    simp only [script, map_nil, nil_append, events, headState]
    cases effect with
    | sent before => cases unsent.symm.trans before
    | none _ _ silent => exact absurd silent (ending_ne_nil env last o)
    | sends _ after data more whole => exact ⟨data, more ++ [], by rw [whole, ite_self]; rfl⟩
  | cons call calls ih =>
    have effect := headEffect_react o env (.early call)
    simp only [script, map_cons, cons_append, events, headState]
    cases effect with
    | sent before => cases unsent.symm.trans before
    | none _ after silent =>
      rw [silent, after]
      exact ih after
    | sends _ after data more whole =>
      rw [whole, after]
      exact ⟨data, _, rfl⟩

def TellsClose (o : OutgoingResponse) : Prop :=
  o.data.Closing ∨ o.bodyWriter = some .untilClose

section Response
variable {o : OutgoingResponse}

theorem closing_setHeader {header : HttpHeader} (other : header.name ≠ Connection.codeToName) :
    (o.setHeader header).data.Closing ↔ o.data.Closing := by
  have same : (o.setHeader header).data.headers.lookup Connection.codeToName =
      o.data.headers.lookup Connection.codeToName :=
    OrderedMap.lookup_insertOrAssign.trans (if_neg (by simpa using other.symm))
  rw [HttpResponse.Closing, same]
  rfl

theorem lawful_setHeader (lawful : o.data.headers.Lawful) (code : NameCode) (value : Bytes) :
    (o.setHeader (.ofCode code value)).data.headers.Lawful :=
  lawful.insert (HttpHeader.lower_ofCode code value)

theorem lawful_atHead (ignoreBody : Bool) (calls : List Call) {data : HttpResponse}
    (lawful : data.headers.Lawful) :
    (MessageCall.atHead ignoreBody (calls.map Call.message) data).1.headers.Lawful := by
  induction calls generalizing data with
  | nil => exact lawful
  | cons call calls ih =>
    cases call with
    | setHeader name value => exact ih (lawful.insert (toLower_toLower name))
    | setHeaderCode code value => exact ih (lawful.insert (HttpHeader.lower_ofCode code value))
    | write bytes =>
      simp only [map_cons, Call.message, MessageCall.atHead]
      split
      · exact lawful
      · exact ih lawful
    | _ => exact ih lawful

theorem decided_tells (lawful : o.data.headers.Lawful) : o.decided.data.headers.Lawful ∧
      (o.decided.TellsClose ↔ o.data.Closing ∨ o.data.EndsWithConnection) := by
  by_cases settled : o.headers.HasLength ∨ o.headers.FindsChunked
  · have kept : o.decided.data = o.data := if_pos settled
    have writer : o.decided.bodyWriter ≠ some .untilClose := by
      by_cases counted : o.headers.HasLength
      · simp [decided, useWriter, MessageKind.mode, counted, BodyWriter.create]
      · simp [decided, useWriter, MessageKind.mode, counted, settled.resolve_left counted,
          BodyWriter.create]
    rw [TellsClose, kept]
    refine ⟨lawful, or_congr Iff.rfl (iff_of_false writer fun ends => ?_)⟩
    exact settled.elim ends.1 ends.2.1
  obtain ⟨uncounted, plain⟩ := not_or.mp settled
  by_cases old : o.data.version = .http10
  · have closing : MessageKind.untilClose o.data = some { o.data with shouldClose := true } :=
      if_pos old
    have chosen : o.decided =
        { o with data := { o.data with shouldClose := true } }.useWriter .untilClose := by
      simp [decided, MessageKind.announce, MessageKind.mode, uncounted, plain, closing]
    rw [chosen]
    exact ⟨lawful, iff_of_true (.inr rfl) (.inr ⟨uncounted, plain, old⟩)⟩
  have stays : MessageKind.untilClose o.data = none := if_neg old
  have chosen : o.decided =
      (o.setHeader (.ofCode .TransferEncoding (ascii "chunked"))).useWriter .chunked := by
    simp [decided, MessageKind.announce, MessageKind.mode, uncounted, plain, stays]
    rfl
  rw [chosen]
  refine ⟨lawful_setHeader lawful _ _, or_congr (closing_setHeader (by decide)) ?_⟩
  exact iff_of_false (by rintro ⟨⟩) fun ends => old ends.2.2

theorem sized_tells (undecided : o.bodyWriter = none) (lawful : o.data.headers.Lawful)
    (last : Ending) :
    (o.sized last).data.headers.Lawful ∧ ((o.sized last).TellsClose ↔ o.data.Closing) := by
  have other : ContentLength.codeToName ≠ Connection.codeToName := by decide
  unfold sized measured
  split
  · split
    · exact ⟨lawful, or_iff_left (by simp [counted, undecided])⟩
    · refine ⟨lawful_setHeader lawful _ _, Iff.trans (or_iff_left ?_) (closing_setHeader other)⟩
      simp [counted, setLength, setHeader, undecided]
  · exact ⟨lawful_setHeader lawful _ _,
      Iff.trans (or_iff_left (by rintro ⟨⟩)) (closing_setHeader other)⟩

/-- The header block is sent by a write or by the `end`, with what was set before. -/
theorem headState_tells (opening : Opening o) (lawful : o.data.headers.Lawful) (env : Env)
    (calls : List Call) (last : Ending) :
    let h := o.headState env (script (calls.map Call.message) last)
    h.data.headers.Lawful ∧ (h.TellsClose ↔ o.data.AsksClose o.ignoreBody calls) := by
  intro h
  obtain ⟨bytes, ⟨length, built⟩, -⟩ := sent_opening env opening (calls.map Call.message) last
  have lawful' := lawful_atHead o.ignoreBody calls lawful
  rw [show h = _ from built, HttpResponse.AsksClose, opened]
  generalize MessageCall.atHead o.ignoreBody (calls.map Call.message) o.data = start at lawful'
  by_cases ends : start.2 = []
  · simp only [ends, if_true, ne_eq, not_true_eq_false, false_and, or_false]
    exact sized_tells (o := { o with data := start.1, bodyLength := length })
      opening.undecided lawful' last
  · simp only [ends, if_false, ne_eq, not_false_eq_true, true_and]
    exact decided_tells (o := { o with data := start.1, bodyLength := length }) lawful'

end Response

end Outgoing

namespace HttpServer

def Closes (server : HttpServer) (done : List Exchange) (start : Bytes) (request : HttpRequest)
    (c : Source) : Prop :=
  ∀ next, server.handle done start request c ≠ .inl next

theorem closes_iff {server : HttpServer} (stays : (isUpgradeRequest request &&
      server.requestUpgrader.any (· done.length request)) = false)
    (answered : server.answer (previous done) done.length request
      (.create request.transferMode request.contentLength) c = .ok (reply, left, seen, b, d)) :
    server.Closes done start request c ↔
      request.keepAlive = false ∨ ∃ e, drainBody b d = .error e := by
  simp only [Closes, handle, stays, answered]
  cases drained : drainBody b d with
  | error e => simp
  | ok c => cases request.keepAlive <;> simp

/-- Draining a counted body fails if the connection ends in it. A body that is complete or that
`Carries` describes is drained. -/
theorem drainBody_fails_iff (valid : d.Valid) (counted : b.impl = .contentLength total got) :
    (∃ e, drainBody b d = .error e) ↔ d.unread.length < total - got := by
  by_cases complete : total ≤ got
  · simp [drainBody, BodyReader.isComplete, counted, BodyReaderImpl.isComplete, complete]
  constructor
  · rintro ⟨e, fails⟩
    by_contra enough
    have carries : Carries (d.unread.drop (total - got)) b.impl d
        (d.unread.take (total - got)) := by
      rw [counted]
      refine .contentLength valid (take_append_drop _ _).symm ?_
      rw [length_take]
      omega
    obtain ⟨c, drained, -⟩ := drainBody_spec carries
    cases fails.symm.trans drained
  · intro short
    obtain ⟨e, fails⟩ := BodyReaderImpl.drain_short valid short
    refine ⟨e, ?_⟩
    simp [drainBody, BodyReader.isComplete, BodyReader.drain, counted, BodyReaderImpl.isComplete,
      complete, fails, bind, Except.bind]

def response (request : HttpRequest) (sendDateHeader : Bool) : OutgoingResponse where
  data := { shouldClose := !request.keepAlive }
  ignoreBody := request.method = .head
  sendDateHeader := sendDateHeader

theorem opening_response (request : HttpRequest) (sendDateHeader : Bool) :
    Outgoing.Opening (response request sendDateHeader) := ⟨rfl, rfl⟩

def greeter : HttpServer where
  registry := .registering []
  route _ _ _ := { reason := .ok, handler := some {} }

end HttpServer

end Nitrocoro.Http
