import Nitrocoro.Http.Head

/-! Which framing the request parser chooses for header lines of any kind. -/
namespace Nitrocoro.Http
open Text List

def lineValue (code : NameCode) (line : Bytes) : Option Bytes :=
  match parseHeaderLine line with
  | .ok header =>
    if isValidToken header.name ∧ toLower header.name = code.codeToName then some header.value
    else none
  | .error _ => none

def valuesOf (code : NameCode) (lines : List Bytes) : List Bytes :=
  lines.filterMap (lineValue code)

@[simp] theorem lineValue_nil (code : NameCode) : lineValue code [] = none := by
  have empty : parseHeaderLine [] = .ok {} := rfl
  have token : isValidToken [] = false := rfl
  simp [lineValue, empty, token]

theorem lineValue_ok (cut : parseHeaderLine line = .ok header) (code : NameCode) :
    lineValue code line
      = if isValidToken header.name ∧ toLower header.name = code.codeToName then some header.value
        else none := by
  rw [lineValue, cut]

theorem head?_valuesOf (code : NameCode) (line : Bytes) (lines : List Bytes) :
    (valuesOf code (line :: lines)).head? = (lineValue code line).or (valuesOf code lines).head? := by
  rw [valuesOf, filterMap_cons]
  cases lineValue code line <;> rfl

def HttpHeaderMap.value? (headers : HttpHeaderMap) (code : NameCode) : Option Bytes :=
  (headers.lookup code.codeToName).map HttpHeader.value

theorem HttpHeaderMap.value?_emplace (headers : HttpHeaderMap) (name value : Bytes)
    (code : NameCode) :
    HttpHeaderMap.value? (OrderedMap.emplace (toLower name) (.ofName name value) headers) code
      = (headers.value? code).or (if toLower name = code.codeToName then some value else none) := by
  by_cases same : toLower name = code.codeToName
  · rw [if_pos same, same]
    cases present : headers.lookup code.codeToName with
    | none => simp [value?, OrderedMap.lookup_emplace, present, HttpHeader.ofName]
    | some header => simp [value?, OrderedMap.lookup_emplace, present]
  · have apart : (code.codeToName == toLower name) = false := by
      simpa using Ne.symm same
    rw [if_neg same, Option.or_none]
    simp [value?, OrderedMap.lookup_emplace, apart]

namespace RequestParser
variable {reg : MethodRegistry} {p q : HttpParser HttpRequest} {code : NameCode}

theorem addHeader_value (known : code ≠ .Unknown) (other : code ≠ .Cookie) (line : HeaderLine) :
    (addHeader p line).data.headers.value? code
      = (p.data.headers.value? code).or
          (if isValidToken line.name ∧ toLower line.name = code.codeToName then some line.value
            else none) := by
  by_cases token : isValidToken line.name
  · have named : line.name ≠ [] := token_nonempty token
    have code_iff : toLower line.name = code.codeToName
        ↔ (HttpHeader.ofName line.name line.value).nameCode = code :=
      (NameCode.nameToCode_eq_iff known).symm
    simp only [addHeader, token, named, not_true_eq_false, or_self, if_false, true_and]
    split
    · rename_i cookie
      have apart : ¬ toLower line.name = code.codeToName := by
        rw [code_iff, cookie]
        exact Ne.symm other
      simp [apart]
    rw [HttpHeader.name_ofName]
    split
    · exact HttpHeaderMap.value?_emplace ..
    rename_i header present
    have kept : p.data.headers.value? code = (p.data.headers.value? code).or
        (if toLower line.name = code.codeToName then some line.value else none) := by
      by_cases same : toLower line.name = code.codeToName
      · rw [HttpHeaderMap.value?, ← same, present]
        rfl
      · rw [if_neg same, Option.or_none]
    split <;> exact kept
  · simp [addHeader, token]

theorem addHeader_contentLength (goes : (addHeader p line).state = .expectHeader)
    (token : isValidToken line.name) (named : toLower line.name = NameCode.ContentLength.codeToName) :
    (addHeader p line).data.headers.value? .ContentLength = some line.value := by
  rw [addHeader_value (by decide) (by decide), if_pos ⟨token, named⟩]
  cases present : p.data.headers.value? .ContentLength with
  | none => rfl
  | some value =>
    obtain ⟨header, there, rfl⟩ := Option.map_eq_some_iff.mp present
    by_contra differs
    have differs : line.value ≠ header.value := fun same => differs (by rw [same]; rfl)
    have nonempty : line.name ≠ [] := token_nonempty token
    have code : (HttpHeader.ofName line.name line.value).nameCode = .ContentLength :=
      (NameCode.nameToCode_eq_iff (by decide)).mpr named
    have fails : (addHeader p line).state = .error := by
      simp [addHeader, token, nonempty, code, HttpHeader.name_ofName, named, there, differs,
        HttpParser.setError]
    rw [fails] at goes
    cases goes

theorem addHeader_state (started : p.state = .expectHeader) (line : HeaderLine) :
    (addHeader p line).state = .expectHeader ∨ (addHeader p line).state = .error := by
  simp only [addHeader]
  split
  · exact .inl started
  split
  · exact .inl started
  split
  · exact .inl started
  · split
    · exact .inr rfl
    · exact .inl started

theorem parseLine_cut (started : p.state = .expectHeader) (some : line ≠ [])
    (parsed : parseLine reg p line = .ok q) :
    ∃ header, parseHeaderLine line = .ok header ∧ q = addHeader p header := by
  simp only [parseLine, started, reduceCtorEq, if_false, if_pos some] at parsed
  obtain ⟨header, cut, same⟩ := bind_eq_ok.mp parsed
  exact ⟨header, cut, (Except.ok.inj same).symm⟩

theorem parseLine_end (started : p.state = .expectHeader) (parsed : parseLine reg p [] = .ok q) :
    q = processHeaders p :=
  Except.ok.inj (parsed.symm.trans (parseLine_blank started))

/-- The headers that a finished parser decides on hold the first value of each name, and for
Content-Length every value. -/
theorem parses_values (parses : (requestHead reg).Parses p lines q)
    (started : p.state = .expectHeader) :
    ∃ ended : HttpParser HttpRequest, q = processHeaders ended ∧ q.state = .headerComplete ∧
      (∀ code, code ≠ .Unknown → code ≠ .Cookie → ended.data.headers.value? code
        = (p.data.headers.value? code).or (valuesOf code lines).head?) ∧
      ∀ value ∈ valuesOf .ContentLength lines,
        ended.data.headers.value? .ContentLength = some value := by
  induction parses with
  | @last p line q parsed ended =>
    by_cases empty : line = []
    · subst empty
      refine ⟨p, parseLine_end started parsed, ended, ?_, ?_⟩
      · simp [valuesOf]
      · intro value mem
        simp [valuesOf] at mem
    -- a header line does not end the head
    obtain ⟨header, -, rfl⟩ := parseLine_cut started empty parsed
    rcases addHeader_state started header with goes | fails
    · rw [goes] at ended
      cases ended
    · rw [fails] at ended
      cases ended
  | @more p line q lines r parsed goes _ ih =>
    have some : line ≠ [] := by
      rintro rfl
      rcases parseLine_nil parsed with fails | ended
      · rw [fails] at goes
        cases goes
      · rw [ended] at goes
        cases goes
    obtain ⟨header, cut, rfl⟩ := parseLine_cut started some parsed
    obtain ⟨ended, final, complete, values, lengths⟩ := ih goes
    refine ⟨ended, final, complete, ?_, ?_⟩
    · intro code known other
      rw [values code known other, addHeader_value known other, head?_valuesOf,
        lineValue_ok cut, Option.or_assoc]
    intro value mem
    obtain ⟨line', member, given⟩ := mem_filterMap.mp mem
    rcases mem_cons.mp member with rfl | later
    · rw [lineValue_ok cut] at given
      split at given
      · rename_i named
        cases given
        rw [values _ (by decide) (by decide), addHeader_contentLength goes named.1 named.2]
        rfl
      · cases given
    · exact lengths value (mem_filterMap.mpr ⟨line', later, given⟩)

/-- Inside a head, without an error. -/
structure Waiting (p : HttpParser HttpRequest) : Prop where
  state : p.state = .expectStatusLine ∨ p.state = .expectHeader
  clean : p.errorCode = .none

structure Failed (p : HttpParser HttpRequest) : Prop where
  state : p.state = .error
  code : p.errorCode ≠ .none

theorem failed_setError {error : HttpParseError} (bad : error ≠ .none) (message : Bytes) :
    Failed (p.setError error message) := ⟨rfl, bad⟩

theorem Waiting.parseRequestLine (waiting : Waiting p) (line : Bytes) :
    (Waiting (parseRequestLine reg p line) ∧ (parseRequestLine reg p line).state = .expectHeader ∧
        line ≠ []) ∨ Failed (parseRequestLine reg p line) := by
  simp only [RequestParser.parseRequestLine]
  split
  · exact .inr (failed_setError (by decide) _)
  rename_i found
  split
  · exact .inr (failed_setError (by decide) _)
  split
  · exact .inr (failed_setError (by decide) _)
  split
  · exact .inr (failed_setError (by decide) _)
  · refine .inl ⟨⟨.inr rfl, waiting.clean⟩, rfl, ?_⟩
    rintro rfl
    cases found

theorem Waiting.addHeader (waiting : Waiting p) (header : HeaderLine) :
    (Waiting (addHeader p header) ∧ (addHeader p header).state = p.state) ∨
      Failed (addHeader p header) := by
  simp only [RequestParser.addHeader]
  split
  · exact .inl ⟨waiting, rfl⟩
  split
  · exact .inl ⟨{ waiting with }, rfl⟩
  split
  · exact .inl ⟨{ waiting with }, rfl⟩
  · split
    · exact .inr (failed_setError (by decide) _)
    · exact .inl ⟨waiting, rfl⟩

theorem contentLengthFraming_error {headers : HttpHeaderMap}
    (fails : contentLengthFraming headers = .error error) : error.1 ≠ .none := by
  simp only [contentLengthFraming] at fails
  split at fails
  · cases fails
  split at fails
  · cases fails
    rintro ⟨⟩
  · split at fails <;> cases fails
    rintro ⟨⟩

theorem messageFraming_error {headers : HttpHeaderMap}
    (fails : messageFraming headers = .error error) : error.1 ≠ .none := by
  simp only [messageFraming] at fails
  split at fails
  · exact contentLengthFraming_error fails
  split at fails
  · cases fails
  split at fails
  · cases fails
    rintro ⟨⟩
  · exact contentLengthFraming_error fails

/-- A line of a head leads on, ends it or is refused, and the empty line ends it. -/
theorem Waiting.parseLine (waiting : Waiting p) (parsed : parseLine reg p line = .ok q) :
    (Waiting q ∧ q.state = .expectHeader ∧ line ≠ []) ∨
      (q.state = .headerComplete ∧ q.errorCode = .none ∧ line = []) ∨ Failed q := by
  rcases waiting.state with start | started
  · simp only [RequestParser.parseLine, if_pos start] at parsed
    cases parsed
    exact (waiting.parseRequestLine line).imp_right .inr
  by_cases empty : line = []
  · subst empty
    rw [parseLine_end started parsed, processHeaders]
    split
    · rename_i framed
      exact .inr (.inr (failed_setError (messageFraming_error framed) _))
    · exact .inr (.inl ⟨rfl, waiting.clean, rfl⟩)
  · obtain ⟨header, -, rfl⟩ := parseLine_cut started empty parsed
    refine (waiting.addHeader header).imp ?_ .inr
    rintro ⟨still, same⟩
    exact ⟨still, same.trans started, empty⟩

theorem parseRequestLine_headers (line : Bytes) :
    (parseRequestLine reg p line).data.headers = p.data.headers := by
  have target : ∀ (path : Bytes) (data : HttpRequest),
      (parseTarget path data).headers = data.headers := by
    intro path data
    simp only [parseTarget]
    split <;> rfl
  simp only [parseRequestLine]
  split
  · rfl
  split
  · rfl
  split
  · rfl
  · split
    · rfl
    · exact target _ _

theorem parseRequestLine_state (line : Bytes) :
    (parseRequestLine reg p line).state ≠ .headerComplete := by
  simp only [parseRequestLine]
  split
  · simp [HttpParser.setError]
  split
  · simp [HttpParser.setError]
  · split
    · simp [HttpParser.setError]
    · split <;> simp [HttpParser.setError]

/-- A head without errors: the framing is that of the first values, and the values of
Content-Length are all the same. -/
theorem finished_values
    (parses : (requestHead reg).Parses { data := (requestHead reg).empty } (first :: lines) q) :
    ∃ ended : HttpParser HttpRequest, q = processHeaders ended ∧ q.state = .headerComplete ∧
      (∀ code, code ≠ .Unknown → code ≠ .Cookie →
        ended.data.headers.value? code = (valuesOf code lines).head?) ∧
      ∀ value ∈ valuesOf .ContentLength lines,
        (valuesOf .ContentLength lines).head? = some value := by
  cases parses with
  | last parsed ended =>
    cases Except.ok.inj (show Except.ok (parseRequestLine reg _ first) = .ok q from parsed)
    exact absurd ended (parseRequestLine_state first)
  | @more _ _ started _ _ parsed goes rest =>
    have begun :=
      Except.ok.inj (show Except.ok (parseRequestLine reg _ first) = .ok started from parsed)
    obtain ⟨ended, final, complete, values, lengths⟩ := parses_values rest goes
    have own : ∀ code, code ≠ .Unknown → code ≠ .Cookie →
        ended.data.headers.value? code = (valuesOf code lines).head? := by
      intro code known other
      rw [values code known other, ← begun, parseRequestLine_headers]
      rfl
    refine ⟨ended, final, complete, own, ?_⟩
    intro value mem
    rw [← own _ (by decide) (by decide), lengths value mem]

theorem processHeaders_mode (complete : (processHeaders p).state = .headerComplete) :
    ∃ mode, messageFraming p.data.headers = .ok mode ∧
      (processHeaders p).data.transferMode = (mode.getD (.contentLength, 0)).1 ∧
      (processHeaders p).data.contentLength = (mode.getD (.contentLength, 0)).2 := by
  unfold processHeaders at complete ⊢
  split at complete
  · cases complete
  · rename_i mode framed
    exact ⟨mode, framed, rfl, rfl⟩

theorem contentLengthFraming_none {headers : HttpHeaderMap}
    (absent : headers.value? .ContentLength = none) : contentLengthFraming headers = .ok none := by
  rw [contentLengthFraming, Option.map_eq_none_iff.mp absent]

theorem contentLengthFraming_some {headers : HttpHeaderMap}
    (present : headers.value? .ContentLength = some value)
    (framed : contentLengthFraming headers = .ok mode) :
    ∃ n, mode = some (.contentLength, n) ∧ Numeral.stoul 10 value = .ok n ∧
      value.head? ≠ some 45 := by
  obtain ⟨header, there, rfl⟩ := Option.map_eq_some_iff.mp present
  simp only [contentLengthFraming, there] at framed
  split at framed
  · cases framed
  rename_i signs
  split at framed
  · cases framed
  · rename_i n read
    cases framed
    exact ⟨n, rfl, read, fun minus => signs (.inr minus)⟩

theorem contentLengthFraming_mode {headers : HttpHeaderMap}
    (framed : contentLengthFraming headers = .ok mode) :
    (mode.getD (.contentLength, 0)).1 = .contentLength := by
  cases present : headers.value? .ContentLength with
  | none =>
    rw [contentLengthFraming_none present] at framed
    cases framed
    rfl
  | some value =>
    obtain ⟨n, rfl, -⟩ := contentLengthFraming_some present framed
    rfl

theorem messageFraming_ok {headers : HttpHeaderMap} (framed : messageFraming headers = .ok mode) :
    (mode = some (.chunked, 0) ∧
        ∃ value, headers.value? .TransferEncoding = some value ∧ value ≠ ascii "identity") ∨
      (contentLengthFraming headers = .ok mode ∧
        ∀ value, headers.value? .TransferEncoding = some value → value = ascii "identity") := by
  simp only [messageFraming] at framed
  split at framed
  · rename_i absent
    refine .inr ⟨framed, ?_⟩
    intro value present
    simp [HttpHeaderMap.value?, absent] at present
  rename_i header there
  have present : headers.value? .TransferEncoding = some header.value := by
    rw [HttpHeaderMap.value?, there]
    rfl
  split at framed
  · rename_i chunked
    cases framed
    refine .inl ⟨rfl, header.value, present, ?_⟩
    intro identity
    rw [identity] at chunked
    exact absurd chunked (by decide)
  split at framed
  · cases framed
  rename_i identity
  refine .inr ⟨framed, ?_⟩
  intro value given
  rw [present] at given
  cases given
  exact not_not.mp identity

/-- The values of Content-Length are numerals for the same number below `2 ^ 64`, which is `n`; `n` is
zero without any. -/
def Counted (values : List Bytes) (n : Nat) : Prop :=
  (values = [] ∧ n = 0) ∨
    (values ≠ [] ∧ n < 2 ^ 64 ∧ ∀ value ∈ values, Numeral.Digits 10 value ∧
      Numeral.value 10 (value.filterMap (Numeral.digit 10)) = n)

/-- A number with blanks or a sign before it or with something behind it. -/
def Lenient (value : Bytes) : Prop :=
  ∃ parts : Numeral.Parts, parts.text = value ∧ parts.Proper 10 ∧
    ¬ (parts.blanks = [] ∧ parts.mark = [] ∧ parts.junk = [])

theorem not_lenient_of_digits (numeral : Numeral.Digits 10 value) : ¬ Lenient value := by
  rintro ⟨parts, rfl, proper, extra⟩
  have digits : ∀ c ∈ parts.text, (Numeral.digit 10 c).isSome := numeral.digits
  simp only [Numeral.Parts.text, mem_append] at digits
  apply extra
  refine ⟨?_, ?_, ?_⟩
  · cases blanks : parts.blanks with
    | nil => rfl
    | cons c more =>
      have mem : c ∈ parts.blanks := by rw [blanks]; exact mem_cons_self
      have space := proper.blank c mem
      rw [Numeral.isSpace_digit (digits c (.inl mem))] at space
      cases space
  · rcases proper.marked with none | plus | minus
    · exact none
    · exact absurd (digits 43 (.inr (.inl (by rw [plus]; exact mem_cons_self)))) (by decide)
    · exact absurd (digits 45 (.inr (.inl (by rw [minus]; exact mem_cons_self)))) (by decide)
  cases junk : parts.junk with
  | nil => rfl
  | cons c more =>
    have isDigit := digits c (.inr (.inr (.inr (by rw [junk]; exact mem_cons_self))))
    rw [proper.ends c (by rw [junk]; rfl)] at isDigit
    cases isDigit

/-- A request that is framed by its length has the length that its Content-Length lines give if
and only if none of them is a number with something around it. -/
theorem counted_iff
    (parses : (requestHead reg).Parses { data := (requestHead reg).empty } (first :: lines) q)
    (counts : q.data.transferMode = .contentLength) :
    Counted (valuesOf .ContentLength lines) q.data.contentLength
      ↔ ∀ value ∈ valuesOf .ContentLength lines, ¬ Lenient value := by
  obtain ⟨ended, rfl, complete, values, lengths⟩ := finished_values parses
  obtain ⟨mode, framed, isMode, length⟩ := processHeaders_mode complete
  rw [isMode] at counts
  rw [length]
  have framed : contentLengthFraming ended.data.headers = .ok mode := by
    rcases messageFraming_ok framed with ⟨rfl, -⟩ | ⟨framed, -⟩
    · cases counts
    · exact framed
  have first_value := values .ContentLength (by decide) (by decide)
  constructor
  · rintro (⟨none, -⟩ | ⟨-, -, numerals⟩) value mem
    · rw [none] at mem
      cases mem
    · exact not_lenient_of_digits (numerals value mem).1
  intro strict
  cases present : (valuesOf .ContentLength lines).head? with
  | none =>
    rw [contentLengthFraming_none (first_value.trans present)] at framed
    cases framed
    exact .inl ⟨List.head?_eq_none_iff.mp present, rfl⟩
  | some value =>
    have mem := mem_of_mem_head? (Option.mem_def.mpr present)
    obtain ⟨n, rfl, read, -⟩ := contentLengthFraming_some (first_value.trans present) framed
    obtain ⟨parts, text, proper, fits, number⟩ := Numeral.stoul_parts (by decide) read
    obtain ⟨blanks, mark, junk⟩ : parts.blanks = [] ∧ parts.mark = [] ∧ parts.junk = [] := by
      by_contra extra
      exact strict value mem ⟨parts, text, proper, extra⟩
    have digits : parts.digits = value := by
      rw [← text, Numeral.Parts.text, blanks, mark, junk, append_nil]
      rfl
    have number := number (by rw [mark]; decide)
    rw [digits] at number fits
    refine .inr ⟨ne_nil_of_mem mem, by rw [← number] at fits; exact fits, ?_⟩
    intro other member
    have same := lengths other member
    rw [present] at same
    cases same
    exact ⟨digits ▸ proper.digits, number.symm⟩

def parseLines (reg : MethodRegistry) : HttpParser HttpRequest → List Bytes →
    Option (HttpParser HttpRequest)
  | _, [] => none
  | p, line :: lines =>
    match parseLine reg p line with
    | .error _ => none
    | .ok q =>
      if q.state = .headerComplete ∧ lines = [] then some q
      else if q.state = .expectHeader then parseLines reg q lines
      else none

theorem parses_of_parseLines (parsed : parseLines reg p lines = some q) :
    (requestHead reg).Parses p lines q := by
  induction lines generalizing p with
  | nil => cases parsed
  | cons line lines ih =>
    simp only [parseLines] at parsed
    split at parsed
    · cases parsed
    rename_i next ok
    split at parsed
    · rename_i ended
      cases parsed
      obtain ⟨complete, rfl⟩ := ended
      exact .last ok complete
    · split at parsed
      · rename_i goes
        exact .more ok goes (ih parsed)
      · cases parsed

theorem exists_parses (reg : MethodRegistry) (p : HttpParser HttpRequest) (lines : List Bytes)
    (P : HttpParser HttpRequest → Bool)
    (runs : (parseLines reg p lines).any P) : ∃ q, (requestHead reg).Parses p lines q ∧ P q := by
  cases run : parseLines reg p lines with
  | none =>
    rw [run] at runs
    cases runs
  | some q =>
    rw [run] at runs
    exact ⟨q, parses_of_parseLines run, runs⟩

/-- Four heads. They are parsed in one evaluation, which has to spell out the table of header names
only once. -/
theorem sample_heads :
    let head (lines : List String) := parseLines (.registering []) { data := {} }
      (ascii "GET / HTTP/1.1" :: lines.map ascii)
    (head ["Content-Length: 12", "Content-Length: 12", ""]).any
        (fun q => q.data.transferMode = .contentLength) ∧
      (head ["Content-Length: 5, 6", ""]).any
        (fun q => q.data.transferMode = .contentLength ∧ q.data.contentLength = 5) ∧
      (head ["Transfer-Encoding: gzip, chunked", "Content-Length: 3", ""]).any (fun _ => true) ∧
      (head ["Transfer-Encoding: identity", "Transfer-Encoding: chunked", "Content-Length: 3",
          ""]).any
        (fun q => q.data.transferMode = .contentLength ∧ q.data.contentLength = 3) := by
  decide +kernel

theorem counted_iff_sample :
    let lines := (["Content-Length: 12", "Content-Length: 12", ""]).map ascii
    ∃ q, (requestHead (.registering [])).Parses { data := {} } (ascii "GET / HTTP/1.1" :: lines) q ∧
      q.data.transferMode = .contentLength ∧
      (Counted (valuesOf .ContentLength lines) q.data.contentLength
        ↔ ∀ value ∈ valuesOf .ContentLength lines, ¬ Lenient value) := by
  intro lines
  obtain ⟨q, parses, counts⟩ := exists_parses (.registering []) { data := {} }
    (ascii "GET / HTTP/1.1" :: lines) (fun q => q.data.transferMode = .contentLength)
    sample_heads.1
  exact ⟨q, parses, by simpa using counts, counted_iff parses (by simpa using counts)⟩

/-- What follows the first number of a list is dropped. -/
theorem counted_list :
    let lines := (["Content-Length: 5, 6", ""]).map ascii
    ∃ q, (requestHead (.registering [])).Parses { data := {} } (ascii "GET / HTTP/1.1" :: lines) q ∧
      q.data.transferMode = .contentLength ∧ q.data.contentLength = 5 ∧
      ¬ Counted (valuesOf .ContentLength lines) 5 := by
  intro lines
  obtain ⟨q, parses, counts⟩ := exists_parses (.registering []) { data := {} }
    (ascii "GET / HTTP/1.1" :: lines)
    (fun q => q.data.transferMode = .contentLength ∧ q.data.contentLength = 5) sample_heads.2.1
  obtain ⟨mode, length⟩ : q.data.transferMode = .contentLength ∧ q.data.contentLength = 5 := by
    simpa using counts
  refine ⟨q, parses, mode, length, ?_⟩
  have values : valuesOf .ContentLength lines = [ascii "5, 6"] := by decide
  rintro (⟨none, -⟩ | ⟨-, -, numerals⟩)
  · cases none
  · have comma := (numerals _ mem_cons_self).1.digits 44 (by decide)
    exact absurd comma (by decide)

def listed (piece : Bytes) : Bytes :=
  let blank := fun c : UInt8 => c = 32 || c = 9
  toLower ((piece.dropWhile blank).reverse.dropWhile blank).reverse

def ListsChunked (value : Bytes) : Prop := ∃ piece ∈ pieces 44 value, listed piece = ascii "chunked"

/-- With a Transfer-Encoding line that lists `chunked`, a request without error is framed by chunks if
and only if the first Transfer-Encoding line is not `identity`. -/
theorem chunked_iff
    (parses : (requestHead reg).Parses { data := (requestHead reg).empty } (first :: lines) q)
    (chunked : ∃ value ∈ valuesOf .TransferEncoding lines, ListsChunked value) :
    q.data.transferMode = .chunked
      ↔ (valuesOf .TransferEncoding lines).head? ≠ some (ascii "identity") := by
  obtain ⟨ended, rfl, complete, values, -⟩ := finished_values parses
  obtain ⟨mode, framed, isMode, -⟩ := processHeaders_mode complete
  have first_value := values .TransferEncoding (by decide) (by decide)
  obtain ⟨value, mem, -⟩ := chunked
  rw [isMode]
  rcases messageFraming_ok framed with ⟨rfl, value, present, other⟩ | ⟨counted, identity⟩
  · rw [← first_value, present]
    exact iff_of_true rfl fun same => other (Option.some.inj same)
  refine iff_of_false ?_ ?_
  · rw [contentLengthFraming_mode counted]
    decide
  intro other
  cases present : (valuesOf .TransferEncoding lines).head? with
  | none =>
    rw [List.head?_eq_none_iff.mp present] at mem
    cases mem
  | some value =>
    apply other
    rw [present, identity value (first_value.trans present)]

theorem chunked_iff_sample :
    let lines := (["Transfer-Encoding: gzip, chunked", "Content-Length: 3", ""]).map ascii
    ∃ q, (requestHead (.registering [])).Parses { data := {} } (ascii "GET / HTTP/1.1" :: lines) q ∧
      (q.data.transferMode = .chunked
        ↔ (valuesOf .TransferEncoding lines).head? ≠ some (ascii "identity")) := by
  intro lines
  obtain ⟨q, parses, -⟩ := exists_parses (.registering []) { data := {} }
    (ascii "GET / HTTP/1.1" :: lines) (fun _ => true) sample_heads.2.2.1
  exact ⟨q, parses, chunked_iff parses ⟨ascii "gzip, chunked", by decide,
    ascii " chunked", by decide, by decide⟩⟩

/-- A first line that says `identity` hides the second one. -/
theorem chunked_hidden :
    let lines := (["Transfer-Encoding: identity", "Transfer-Encoding: chunked", "Content-Length: 3",
      ""]).map ascii
    (∃ value ∈ valuesOf .TransferEncoding lines, ListsChunked value) ∧
    ∃ q, (requestHead (.registering [])).Parses { data := {} } (ascii "GET / HTTP/1.1" :: lines) q ∧
      q.data.transferMode = .contentLength ∧ q.data.contentLength = 3 := by
  intro lines
  obtain ⟨q, parses, counts⟩ := exists_parses (.registering []) { data := {} }
    (ascii "GET / HTTP/1.1" :: lines)
    (fun q => q.data.transferMode = .contentLength ∧ q.data.contentLength = 3)
    sample_heads.2.2.2
  refine ⟨⟨ascii "chunked", by decide, ascii "chunked", by decide, by decide⟩, q, parses, ?_⟩
  simpa using counts

end RequestParser
end Nitrocoro.Http
