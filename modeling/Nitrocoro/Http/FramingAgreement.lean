import Nitrocoro.Http.FramingProofs
import Nitrocoro.Http.ParserProofs

/-! The framing that the request parser and the response parser decide on for the same header
lines. -/
namespace Nitrocoro.Http
open Text List

/-- The run of a parser over lines, up to an error or the end of the head. -/
def HeadReader.feed (reader : HeadReader M) : HttpParser M → List Bytes →
    Except Exn (HttpParser M)
  | p, [] => .ok p
  | p, line :: lines => do
    let q ← reader.parseLine p line
    if q.state = .error ∨ q.state = .headerComplete then .ok q else feed reader q lines

theorem HeadReader.feed_more (reader : HeadReader M) {p q : HttpParser M}
    (parsed : reader.parseLine p line = .ok q) (goes : q.state = .expectHeader) (lines : List Bytes) :
    reader.feed p (line :: lines) = reader.feed q lines := by
  simp only [feed, parsed, bind, Except.bind]
  rw [if_neg (by rw [goes]; decide)]

theorem HeadReader.feed_last (reader : HeadReader M) {p q : HttpParser M}
    (parsed : reader.parseLine p line = .ok q) (ended : q.state = .error ∨ q.state = .headerComplete)
    (lines : List Bytes) : reader.feed p (line :: lines) = .ok q := by
  simp only [feed, parsed, bind, Except.bind]
  rw [if_pos ended]

def decision (framing : M → TransferMode × Nat) (run : Except Exn (HttpParser M)) :
    Option (TransferMode × Nat) :=
  match run with
  | .ok q => if q.state = .headerComplete then some (framing q.data) else none
  | .error _ => none

def requestDecision (reg : MethodRegistry) (p : HttpParser HttpRequest) (lines : List Bytes) :
    Option (TransferMode × Nat) :=
  decision (fun data => (data.transferMode, data.contentLength))
    ((requestHead reg).feed p (lines ++ [[]]))

def responseDecision (p : HttpParser HttpResponse) (lines : List Bytes) :
    Option (TransferMode × Nat) :=
  decision (fun data => (data.transferMode, data.contentLength)) (responseHead.feed p (lines ++ [[]]))

/-- The framing of headers with these first values of Transfer-Encoding and Content-Length, where
`untold` is that of a message without any. -/
def framingOf (untold : TransferMode × Nat) (headers : HttpHeaderMap) :
    Option (TransferMode × Nat) :=
  match messageFraming headers with
  | .error _ => none
  | .ok mode => some (mode.getD untold)

theorem contentLengthFraming_congr {headers others : HttpHeaderMap}
    (same : headers.value? .ContentLength = others.value? .ContentLength) :
    contentLengthFraming headers = contentLengthFraming others := by
  unfold HttpHeaderMap.value? at same
  unfold contentLengthFraming
  cases here : headers.lookup NameCode.ContentLength.codeToName with
  | none =>
    rw [here, Option.map_none, eq_comm, Option.map_eq_none_iff] at same
    rw [same]
  | some header =>
    rw [here, Option.map_some, eq_comm, Option.map_eq_some_iff] at same
    obtain ⟨other, there, equal⟩ := same
    simp only [there, equal]

theorem messageFraming_congr {headers others : HttpHeaderMap}
    (coding : headers.value? .TransferEncoding = others.value? .TransferEncoding)
    (length : headers.value? .ContentLength = others.value? .ContentLength) :
    messageFraming headers = messageFraming others := by
  unfold HttpHeaderMap.value? at coding
  unfold messageFraming
  rw [contentLengthFraming_congr length]
  cases here : headers.lookup NameCode.TransferEncoding.codeToName with
  | none =>
    rw [here, Option.map_none, eq_comm, Option.map_eq_none_iff] at coding
    rw [coding]
  | some header =>
    rw [here, Option.map_some, eq_comm, Option.map_eq_some_iff] at coding
    obtain ⟨other, there, equal⟩ := coding
    simp only [there, equal]

theorem messageFraming_none_iff {headers : HttpHeaderMap} :
    messageFraming headers = .ok none ↔ headers.value? .ContentLength = none ∧
      (headers.value? .TransferEncoding = none ∨
        headers.value? .TransferEncoding = some (ascii "identity")) := by
  constructor
  · intro framed
    rcases RequestParser.messageFraming_ok framed with ⟨⟨⟩, _⟩ | ⟨counted, identity⟩
    constructor
    · cases present : headers.value? .ContentLength with
      | none => rfl
      | some value =>
        obtain ⟨n, some, _⟩ := RequestParser.contentLengthFraming_some present counted
        cases some
    · cases coding : headers.value? .TransferEncoding with
      | none => exact .inl rfl
      | some value =>
        rw [identity value coding]
        exact .inr rfl
  · rintro ⟨absent, coding⟩
    have counted := RequestParser.contentLengthFraming_none absent
    unfold messageFraming
    rcases coding with none | identity
    · rw [Option.map_eq_none_iff.mp none]
      exact counted
    · obtain ⟨header, there, value⟩ := Option.map_eq_some_iff.mp identity
      have other : (find (ascii "chunked") (ascii "identity")).isSome = false := by decide +kernel
      simp only [there, value]
      exact counted

/-- A value that is no length: it is empty, starts with a minus sign, or `std::stoul` throws. -/
def NoLength (value : Bytes) : Prop :=
  value = [] ∨ value.head? = some 45 ∨ ∃ error, Numeral.stoul 10 value = .error error

/-- The first values of Transfer-Encoding and Content-Length frame no message: the coding is unknown,
or none stands before a value that is no length. -/
def Unframed (coding length : Option Bytes) : Prop :=
  (∃ value, coding = some value ∧ ¬ ascii "chunked" <:+: value ∧ value ≠ ascii "identity") ∨
    (coding = none ∨ coding = some (ascii "identity")) ∧ ∃ value, length = some value ∧ NoLength value

theorem contentLengthFraming_error_iff {headers : HttpHeaderMap} :
    (∃ error, contentLengthFraming headers = .error error) ↔
      ∃ value, headers.value? .ContentLength = some value ∧ NoLength value := by
  unfold HttpHeaderMap.value? contentLengthFraming
  cases headers.lookup NameCode.ContentLength.codeToName with
  | none => simp
  | some header =>
    simp only [Option.map_some, Option.some.injEq, exists_eq_left', NoLength]
    by_cases signed : header.value = [] ∨ header.value.head? = some 45
    · rw [if_pos signed, ← or_assoc]
      exact iff_of_true ⟨_, rfl⟩ (.inl signed)
    · rw [if_neg signed, ← or_assoc, or_iff_right signed]
      cases Numeral.stoul 10 header.value <;> simp

theorem messageFraming_error_iff {headers : HttpHeaderMap} :
    (∃ error, messageFraming headers = .error error) ↔
      Unframed (headers.value? .TransferEncoding) (headers.value? .ContentLength) := by
  rw [Unframed, ← contentLengthFraming_error_iff, HttpHeaderMap.value?, messageFraming]
  cases headers.lookup NameCode.TransferEncoding.codeToName with
  | none => simp
  | some header =>
    simp only [Option.map_some, Option.some.injEq, exists_eq_left', reduceCtorEq, false_or,
      Option.isSome_iff_ne_none, ne_eq, find_none_iff, not_not]
    by_cases chunked : ascii "chunked" <:+: header.value
    · have other : header.value ≠ ascii "identity" := by
        intro identity
        rw [identity] at chunked
        exact absurd chunked (by decide +kernel)
      simp [chunked, other]
    · by_cases identity : header.value = ascii "identity"
      · rw [if_neg chunked, if_neg (not_not.mpr identity)]
        simp [identity]
      · simp [chunked, identity]

def Holds (headers : HttpHeaderMap) (before : HttpHeaderMap) (lines : List Bytes) : Prop :=
  ∀ code, code ≠ .Unknown → code ≠ .Cookie → code ≠ .SetCookie →
    headers.value? code = (before.value? code).or (valuesOf code lines).head?

def OneLength (before : HttpHeaderMap) (lines : List Bytes) : Prop :=
  ∀ value ∈ valuesOf .ContentLength lines,
    (before.value? .ContentLength).or (valuesOf .ContentLength lines).head? = some value

namespace RequestParser
variable {p : HttpParser HttpRequest} {reg : MethodRegistry}

theorem addHeader_error (started : p.state = .expectHeader)
    (failed : (addHeader p line).state = .error) :
    isValidToken line.name ∧ toLower line.name = NameCode.ContentLength.codeToName ∧
      ∃ value, p.data.headers.value? .ContentLength = some value ∧ line.value ≠ value := by
  simp only [addHeader] at failed
  split at failed
  · rw [started] at failed
    cases failed
  rename_i accepted
  rw [not_or, not_not] at accepted
  split at failed
  · rw [started] at failed
    cases failed
  split at failed
  · rw [started] at failed
    cases failed
  rename_i present there
  split at failed
  · rename_i differs
    have named := (NameCode.nameToCode_eq_iff (by decide)).mp differs.1
    rw [HttpHeader.name_ofName, named] at there
    refine ⟨accepted.2, named, present.value, ?_, differs.2⟩
    rw [HttpHeaderMap.value?, there]
    rfl
  · rw [started] at failed
    cases failed

theorem decision_processHeaders (p : HttpParser HttpRequest) :
    decision (fun data => (data.transferMode, data.contentLength)) (.ok (processHeaders p))
      = framingOf (.contentLength, 0) p.data.headers := by
  cases framed : messageFraming p.data.headers with
  | error | ok => simp only [processHeaders, framingOf, framed]; rfl

theorem feed_nil (started : p.state = .expectHeader) :
    requestDecision reg p [] = framingOf (.contentLength, 0) p.data.headers := by
  have parsed : parseLine reg p [] = _ := parseLine_blank started
  rw [← decision_processHeaders, requestDecision, nil_append,
    (requestHead reg).feed_last parsed (parseLine_nil parsed)]

theorem feed_cons (started : p.state = .expectHeader) (some : line ≠ [])
    (cut : parseHeaderLine line = .ok header) : requestDecision reg p (line :: lines)
      = if (addHeader p header).state = .error then none
        else requestDecision reg (addHeader p header) lines := by
  have parsed : parseLine reg p line = _ := parseLine_header started some cut
  rw [requestDecision, cons_append]
  rcases addHeader_state started header with goes | failed
  · rw [if_neg (by rw [goes]; decide), (requestHead reg).feed_more parsed goes]
    rfl
  · rw [if_pos failed, (requestHead reg).feed_last parsed (.inl failed), decision, if_neg]
    rw [failed]
    decide

/-- The request parser refuses two different lengths, and otherwise decides by the first values. -/
theorem requestDecision_spec (started : p.state = .expectHeader) (some : ∀ line ∈ lines, line ≠ []) :
    (OneLength p.data.headers lines ∧ ∃ headers, Holds headers p.data.headers lines ∧
        requestDecision reg p lines = framingOf (.contentLength, 0) headers) ∨
      ¬ OneLength p.data.headers lines ∧ requestDecision reg p lines = none := by
  induction lines generalizing p with
  | nil =>
    left
    refine ⟨fun value mem => absurd mem not_mem_nil, p.data.headers, ?_, feed_nil started⟩
    intro code _ _ _
    exact (Option.or_none).symm
  | cons line lines ih =>
    obtain ⟨header, cut⟩ := parseHeaderLine_ok line
    have step : requestDecision reg p (line :: lines) = _ :=
      feed_cons started (some line mem_cons_self) cut
    have own := lineValue_ok cut .ContentLength
    rcases addHeader_state started header with goes | failed
    · rw [if_neg (by rw [goes]; decide)] at step
      have first : ∀ code, code ≠ .Unknown → code ≠ .Cookie →
          ((addHeader p header).data.headers.value? code).or (valuesOf code lines).head?
            = (p.data.headers.value? code).or (valuesOf code (line :: lines)).head? := by
        intro code known other
        rw [addHeader_value known other, head?_valuesOf, lineValue_ok cut, Option.or_assoc]
      have same : OneLength (addHeader p header).data.headers lines
          ↔ OneLength p.data.headers (line :: lines) := by
        rw [OneLength, OneLength, ← first _ (by decide) (by decide)]
        cases here : lineValue .ContentLength line with
        | none => rw [valuesOf, valuesOf, filterMap_cons_none here]
        | some value =>
          rw [own] at here
          split at here
          · rename_i named
            have added := addHeader_contentLength goes named.1 named.2
            rw [if_pos named] at own
            rw [valuesOf, valuesOf, filterMap_cons_some own, forall_mem_cons, added]
            exact (and_iff_right rfl).symm
          · cases here
      rw [step, ← same]
      apply (ih goes fun line mem => some line (mem_cons_of_mem _ mem)).imp_left
      rintro ⟨one, headers, holds, decides⟩
      refine ⟨one, headers, ?_, decides⟩
      intro code known other third
      rw [holds code known other third, first code known other]
    · rw [if_pos failed] at step
      refine .inr ⟨?_, step⟩
      intro one
      obtain ⟨token, named, value, present, differs⟩ := addHeader_error started failed
      rw [if_pos ⟨token, named⟩] at own
      have equal := one header.value (mem_filterMap.mpr ⟨line, mem_cons_self, own⟩)
      rw [present] at equal
      exact differs (Option.some.inj equal).symm

end RequestParser

namespace ResponseParser
variable {p : HttpParser HttpResponse} {code : NameCode}

theorem addHeader_value (known : code ≠ .Unknown) (other : code ≠ .SetCookie) (line : HeaderLine) :
    (addHeader p line).data.headers.value? code
      = (p.data.headers.value? code).or
          (if isValidToken line.name ∧ toLower line.name = code.codeToName then some line.value
            else none) := by
  by_cases token : isValidToken line.name
  · have named : line.name ≠ [] := token_nonempty token
    simp only [addHeader, token, named, not_true_eq_false, or_self, if_false, true_and]
    split
    · rename_i cookie
      have apart : ¬ toLower line.name = code.codeToName := by
        rw [← NameCode.nameToCode_eq_iff known]
        intro same
        exact other (same.symm.trans cookie)
      rw [if_neg apart, Option.or_none]
    · exact HttpHeaderMap.value?_emplace ..
  · simp [addHeader, token]

theorem addHeader_state (line : HeaderLine) : (addHeader p line).state = p.state := by
  simp only [addHeader]
  split
  · rfl
  · split <;> rfl

theorem decision_processHeaders (p : HttpParser HttpResponse) :
    decision (fun data => (data.transferMode, data.contentLength)) (.ok (processHeaders p))
      = framingOf (.untilClose, 0) p.data.headers := by
  cases framed : messageFraming p.data.headers with
  | error | ok => simp only [processHeaders, framingOf, framed]; rfl

theorem processHeaders_state (p : HttpParser HttpResponse) :
    (processHeaders p).state = .error ∨ (processHeaders p).state = .headerComplete := by
  simp only [processHeaders]
  split
  · exact .inl rfl
  · exact .inr rfl

theorem feed_nil (started : p.state = .expectHeader) :
    responseDecision p [] = framingOf (.untilClose, 0) p.data.headers := by
  rw [← decision_processHeaders, responseDecision, nil_append,
    responseHead.feed_last (parseLine_blank started) (processHeaders_state p)]

theorem feed_cons (started : p.state = .expectHeader) (some : line ≠ [])
    (cut : parseHeaderLine line = .ok header) :
    responseDecision p (line :: lines) = responseDecision (addHeader p header) lines := by
  rw [responseDecision, cons_append, responseHead.feed_more (parseLine_header started some cut)
    ((addHeader_state header).trans started)]
  rfl

theorem responseDecision_spec (started : p.state = .expectHeader)
    (some : ∀ line ∈ lines, line ≠ []) : ∃ headers, Holds headers p.data.headers lines ∧
      responseDecision p lines = framingOf (.untilClose, 0) headers := by
  induction lines generalizing p with
  | nil =>
    refine ⟨p.data.headers, ?_, feed_nil started⟩
    intro code _ _ _
    exact (Option.or_none).symm
  | cons line lines ih =>
    obtain ⟨header, cut⟩ := parseHeaderLine_ok line
    obtain ⟨headers, holds, decides⟩ := ih ((addHeader_state header).trans started)
      fun line mem => some line (mem_cons_of_mem _ mem)
    refine ⟨headers, ?_, ?_⟩
    · intro code known other third
      rw [holds code known other third, addHeader_value known third, head?_valuesOf,
        lineValue_ok cut, Option.or_assoc]
    · rw [feed_cons started (some line mem_cons_self) cut, decides]

end ResponseParser

/-- On header lines that frame the message, the two parsers agree if and only if the first values
frame none, or all lengths are the same and there is more than the coding `identity`. -/
theorem framing_agrees_iff (reg : MethodRegistry) (p : HttpParser HttpRequest)
    (r : HttpParser HttpResponse) (lines : List Bytes) (started : p.state = .expectHeader)
    (fresh : p.data.headers = []) (started' : r.state = .expectHeader)
    (fresh' : r.data.headers = []) (some : ∀ line ∈ lines, line ≠ [])
    (framed : valuesOf .ContentLength lines ≠ [] ∨ valuesOf .TransferEncoding lines ≠ []) :
    requestDecision reg p lines = responseDecision r lines ↔
      Unframed (valuesOf .TransferEncoding lines).head? (valuesOf .ContentLength lines).head? ∨
        (∀ value ∈ valuesOf .ContentLength lines,
          (valuesOf .ContentLength lines).head? = Option.some value) ∧
        ¬ (valuesOf .ContentLength lines = [] ∧
          (valuesOf .TransferEncoding lines).head? = Option.some (ascii "identity")) := by
  obtain ⟨headers', holds', decides'⟩ := ResponseParser.responseDecision_spec started' some
  rw [fresh'] at holds'
  have coding : headers'.value? .TransferEncoding = (valuesOf .TransferEncoding lines).head? :=
    holds' .TransferEncoding (by decide) (by decide) (by decide)
  have length : headers'.value? .ContentLength = (valuesOf .ContentLength lines).head? :=
    holds' .ContentLength (by decide) (by decide) (by decide)
  have untold : messageFraming headers' = .ok none ↔ valuesOf .ContentLength lines = [] ∧
      (valuesOf .TransferEncoding lines).head? = Option.some (ascii "identity") := by
    rw [messageFraming_none_iff, coding, length, List.head?_eq_none_iff, List.head?_eq_none_iff]
    constructor
    · rintro ⟨bare, none | identity⟩
      · exact absurd framed (by simp [bare, none])
      · exact ⟨bare, identity⟩
    · rintro ⟨bare, identity⟩
      exact ⟨bare, .inr identity⟩
  have unframed : (∃ error, messageFraming headers' = .error error) ↔
      Unframed (valuesOf .TransferEncoding lines).head? (valuesOf .ContentLength lines).head? := by
    rw [messageFraming_error_iff, coding, length]
  rw [← untold, ← unframed]
  have spec : _ ∨ ¬ _ ∧ requestDecision reg p lines = none :=
    RequestParser.requestDecision_spec started some
  rw [fresh] at spec
  rcases spec with ⟨one, headers, holds, decides⟩ | ⟨several, refused⟩
  · have same : messageFraming headers = messageFraming headers' := by
      apply messageFraming_congr
      · rw [coding]
        exact holds .TransferEncoding (by decide) (by decide) (by decide)
      · rw [length]
        exact holds .ContentLength (by decide) (by decide) (by decide)
    have plain : ∀ value ∈ valuesOf .ContentLength lines,
        (valuesOf .ContentLength lines).head? = Option.some value := one
    rw [decides, decides', and_iff_right plain, framingOf, framingOf, same]
    cases messageFraming headers' with
    | error e => simp
    | ok mode =>
      cases mode with
      | none => simp
      | some mode => simp
  · rw [refused, decides', or_iff_left fun ⟨one, _⟩ => several one, framingOf]
    cases messageFraming headers' <;> simp

def begunRequest : HttpParser HttpRequest := { data := {}, state := .expectHeader }

def begunResponse : HttpParser HttpResponse := { data := {}, state := .expectHeader }

/-- The request parser refuses a second length, the response parser takes the first one. -/
theorem framing_differs :
    let lines := (["Content-Length: 5", "Content-Length: 6"]).map ascii
    requestDecision (.registering []) begunRequest lines = none ∧
      responseDecision begunResponse lines = some (.contentLength, 5) := by
  decide +kernel

theorem framing_agrees_iff_sample :
    let lines := (["Content-Length: 5", "Host: a", "Content-Length: 5"]).map ascii
    requestDecision (.registering []) begunRequest lines = responseDecision begunResponse lines :=
  (framing_agrees_iff (.registering []) begunRequest begunResponse _ rfl rfl rfl rfl
    (by decide +kernel) (by decide +kernel)).mpr (.inr (by decide +kernel))

end Nitrocoro.Http
