import Nitrocoro.Http.BodyReaderProofs
import Nitrocoro.Http.Client
import Nitrocoro.Http.ParserProofs

/-! The client on well-formed responses: the head is parsed line by line, and the body is read
to its end. -/
namespace Nitrocoro.Http
open Text Numeral
open List hiding length tail

def addResponseField (data : HttpResponse) (f : Field) : HttpResponse :=
  if f.Is .SetCookie then
    { data with cookies := ResponseParser.parseCookies f.value data.cookies }
  else
    { data with headers :=
        OrderedMap.emplace (toLower f.name) (.ofName f.name f.value) data.headers }

def collectCookies (fields : List Field) (cookies : List Cookie) : List Cookie :=
  (fields.filter (Field.Is .SetCookie)).foldl
    (fun cookies f => ResponseParser.parseCookies f.value cookies) cookies

theorem foldl_addResponseField (fields : List Field) (data : HttpResponse) :
    fields.foldl addResponseField data = { data with
      headers := collect .SetCookie fields data.headers
      cookies := collectCookies fields data.cookies } := by
  induction fields generalizing data with
  | nil => rfl
  | cons f fields ih =>
    rw [foldl_cons, ih]
    by_cases cookie : f.Is .SetCookie
    · simp [addResponseField, collect, collectCookies, cookie]
    · simp [addResponseField, collect, collectCookies, cookie]

namespace ResponseParser
variable {p : HttpParser HttpResponse} {f : Field}

theorem addHeader_field :
    addHeader p ⟨f.name, f.value⟩ = { p with data := addResponseField p.data f } := by
  have valid : ¬ (f.name = [] ∨ ¬ isValidToken f.name) := by
    simp [token_nonempty f.token, f.token]
  have isCookie := f.header_is (by decide : NameCode.SetCookie ≠ .Unknown)
  simp only [addHeader, if_neg valid, addResponseField]
  by_cases cookie : f.Is .SetCookie
  · rw [if_pos (isCookie.mpr cookie), if_pos cookie]
  · rw [if_neg (mt isCookie.mp cookie), if_neg cookie]
    rfl

theorem parseLine_field (started : p.state = .expectHeader) :
    parseLine p f.line = .ok { p with data := addResponseField p.data f } := by
  rw [parseLine_header started f.line_ne_nil f.parseHeaderLine_line, addHeader_field]

theorem parses_fields (fields : List Field) (started : p.state = .expectHeader)
    (complete : (processHeaders { p with data := fields.foldl addResponseField p.data }).state =
      .headerComplete) :
    responseHead.Parses p (fields.map Field.line ++ [[]])
      (processHeaders { p with data := fields.foldl addResponseField p.data }) := by
  induction fields generalizing p with
  | nil => exact .last (parseLine_blank started) complete
  | cons f fields ih => exact .more (parseLine_field started) started (ih started complete)

def token (s : Bytes) : Bytes := s.take ((findChar 32 s).getD s.length)

def statusToken (line : Bytes) : Bytes :=
  token (line.drop ((findChar 32 line).getD line.length + 1))

theorem parseStatus_accepted (accepted : (parseStatus p rest).state = .expectHeader) :
    ∃ code, stoi (token rest) = .ok code ∧
      (parseStatus p rest).data.statusCode = (code % 2 ^ 16).toNat ∧
      100 ≤ (code % 2 ^ 16).toNat ∧ (code % 2 ^ 16).toNat ≤ 999 := by
  unfold token
  cases space : findChar 32 rest <;> simp only [parseStatus, space, Option.getD_none,
    take_length] at accepted ⊢
  all_goals
    split at accepted
    · cases accepted
    rename_i code read
    split at accepted
    · cases accepted
    · rename_i within
      refine ⟨code, read, ?_, by omega, by omega⟩
      simp only [if_neg within]

/-- A status line that is accepted has one of the two versions. Its status is the number that the
text behind the version spells exactly if that has only digits and is below 65536. -/
theorem status_exact_iff (accepted : (parseStatusLine p line).state = .expectHeader) :
    (token line = ascii "HTTP/1.0" ∨ token line = ascii "HTTP/1.1") ∧
    ((Digits 10 (statusToken line) ∧ 100 ≤ number (statusToken line) ∧
        number (statusToken line) ≤ 999 ∧
        (parseStatusLine p line).data.statusCode = number (statusToken line)) ↔
      Digits 10 (statusToken line) ∧ number (statusToken line) < 65536) := by
  unfold parseStatusLine at accepted ⊢
  cases space : findChar 32 line with
  | none =>
    rw [space] at accepted
    cases accepted
  | some sp1 =>
    have version : token line = line.take sp1 := by simp [token, space]
    have rest : statusToken line = token (line.drop (sp1 + 1)) := by simp [statusToken, space]
    simp only [space] at accepted ⊢
    rw [rest]
    split at accepted
    · cases accepted
    rename_i known
    rw [if_neg known]
    obtain ⟨code, read, status, low, high⟩ := parseStatus_accepted accepted
    refine ⟨?_, ?_⟩
    · simp only [parseHttpVersion] at known
      split_ifs at known <;> simp_all
    rw [status]
    generalize token (line.drop (sp1 + 1)) = text at read
    constructor
    · rintro ⟨digits, -, small, -⟩
      exact ⟨digits, by omega⟩
    rintro ⟨digits, small⟩
    cases read.symm.trans (stoi_digits digits (by omega))
    have cast : ((number text : Int) % 2 ^ 16).toNat = number text := by omega
    rw [cast] at low high ⊢
    exact ⟨digits, low, high, rfl⟩

theorem status_exact_ok :
    (parseStatusLine { data := {} } (ascii "HTTP/1.1 200 OK")).data.statusCode =
      number (ascii "200") := by
  have accepted : (parseStatusLine { data := {} } (ascii "HTTP/1.1 200 OK")).state =
      .expectHeader := by decide
  have digits : Digits 10 (statusToken (ascii "HTTP/1.1 200 OK")) :=
    ⟨by decide, all_eq_true.mp (by decide)⟩
  exact ((status_exact_iff accepted).2.mpr ⟨digits, by decide⟩).2.2.2

/-- A number beyond the range of the field is reduced, and what follows the digits is ignored. -/
theorem status_inexact :
    ((parseStatusLine { data := {} } (ascii "HTTP/1.1 65736 OK")).state = .expectHeader ∧
      (parseStatusLine { data := {} } (ascii "HTTP/1.1 65736 OK")).data.statusCode = 200) ∧
    (parseStatusLine { data := {} } (ascii "HTTP/1.1 200x OK")).state = .expectHeader ∧
      (parseStatusLine { data := {} } (ascii "HTTP/1.1 200x OK")).data.statusCode = 200 := by
  decide

theorem parseStatusLine_spec (code : 100 ≤ n ∧ n ≤ 999) (reason : Bytes) :
    parseStatusLine p (ascii "HTTP/1.1" ++ 32 :: (print 10 n ++ 32 :: reason)) =
      { p with
        data := { p.data with version := .http11, statusCode := n, statusReason := reason }
        state := .expectHeader } := by
  have first : findChar 32 (ascii "HTTP/1.1" ++ 32 :: (print 10 n ++ 32 :: reason)) =
      some 8 := findChar_append (by decide)
  have version : (ascii "HTTP/1.1" ++ 32 :: (print 10 n ++ 32 :: reason)).take 8 =
      ascii "HTTP/1.1" := rfl
  have rest : (ascii "HTTP/1.1" ++ 32 :: (print 10 n ++ 32 :: reason)).drop 9 =
      print 10 n ++ 32 :: reason := rfl
  have digits := (print_digits (by decide : 1 < 10) (by decide) n).digits
  have second : findChar 32 (print 10 n ++ 32 :: reason) =
      some (print 10 n).length :=
    findChar_append fun mem => absurd (digits 32 mem) (by decide)
  have cut : (print 10 n ++ 32 :: reason).drop ((print 10 n).length + 1) =
      reason := by
    rw [← singleton_append, ← append_assoc]
    exact drop_left' (by simp)
  have read : stoi (print 10 n) = .ok n := by
    have := stoi_print (t := []) (n := n) (by omega) fun _ mem => by cases mem
    rwa [append_nil] at this
  have cast : ((n : Int) % 2 ^ 16).toNat = n := by omega
  have known : parseHttpVersion (ascii "HTTP/1.1") = .http11 := by decide
  have supported : ¬ Version.http11 = .unknown := by decide
  have inRange : ¬ (n < 100 ∨ 999 < n) := by omega
  simp only [parseStatusLine, first, version, known, if_neg supported, parseStatus]
  simp only [rest, second, take_left, cut, read, cast, if_neg inRange]

end ResponseParser

def responseLines (n : Nat) (reason : Bytes) (fields : List Field) : List Bytes :=
  (ascii "HTTP/1.1" ++ 32 :: (print 10 n ++ 32 :: reason)) ::
    (fields.map Field.line ++ [[]])

def parsedResponse (n : Nat) (reason : Bytes) (fields : List Field) (mode : TransferMode)
    (length : Nat) : HttpResponse :=
  ResponseParser.processConnectionClose
    { version := .http11
      statusCode := n
      statusReason := reason
      headers := collect .SetCookie fields []
      cookies := collectCookies fields []
      transferMode := mode
      contentLength := length }

theorem parses_response (code : 100 ≤ n ∧ n ≤ 999) (reason : Bytes) (fields : List Field)
    (framed : messageFraming (collect .SetCookie fields []) = .ok (some (mode, length))) :
    responseHead.Parses { data := responseHead.empty } (responseLines n reason fields)
      { data := parsedResponse n reason fields mode length, state := .headerComplete } := by
  let p : HttpParser HttpResponse :=
    { data := { version := .http11, statusCode := n, statusReason := reason }
      state := .expectHeader }
  have done : ResponseParser.processHeaders
      { p with data := fields.foldl addResponseField p.data } =
      { data := parsedResponse n reason fields mode length, state := .headerComplete } := by
    rw [foldl_addResponseField]
    simp only [ResponseParser.processHeaders, p, framed]
    rfl
  refine .more (t := p) ?_ rfl ?_
  · exact congrArg Except.ok (ResponseParser.parseStatusLine_spec code reason)
  · rw [← done]
    exact ResponseParser.parses_fields fields rfl (by rw [done])

theorem single_responseLines (n : Nat) (clean : 10 ∉ reason) (fields : List Field) :
    ∀ line ∈ responseLines n reason fields, OneLine line := by
  intro line mem
  obtain rfl | mem := mem_cons.mp mem
  · apply oneLine_of_not_mem
    intro mem
    have digits := (print_digits (by decide : 1 < 10) (by decide) n).digits
    simp only [mem_append, mem_cons] at mem
    obtain mem | mem | mem | mem | mem := mem
    · exact absurd mem (by decide)
    · exact absurd mem (by decide)
    · exact absurd (digits _ mem) (by decide)
    · exact absurd mem (by decide)
    · exact clean mem
  · obtain mem | mem := mem_append.mp mem
    · obtain ⟨f, -, rfl⟩ := mem_map.mp mem
      exact f.single_line
    · rw [mem_singleton.mp mem]
      decide

theorem roomForBody_spec {buf : Utils.StringBuffer} (valid : buf.Valid) :
    0 < (roomForBody buf).1 ∧ (roomForBody buf).2.Valid ∧
      (roomForBody buf).2.view = buf.view := by
  simp only [roomForBody]
  split
  · exact ⟨(by decide : 0 < 8192), valid.prepareWrite, Utils.StringBuffer.view_prepareWrite valid⟩
  · exact ⟨by dsimp only; omega, valid, rfl⟩

theorem readToEnd_spec (carries : Carries tail b.impl c body) (fresh : b.draining = false) :
    ∃ buf b' d, readToEnd {} b c = .ok (buf, b', d) ∧ buf.view = body := by
  apply Loop.run_spec readToEnd_decreases
    (fun s => s.1.Valid ∧ s.2.1.draining = false ∧
      ∃ rest, body = s.1.view ++ rest ∧ Carries tail s.2.1.impl s.2.2 rest)
    (fun r => ∃ buf b' d, r = .ok (buf, b', d) ∧ buf.view = body)
  · rintro ⟨buf, b, c⟩ ⟨buf', b', c'⟩ ⟨valid, fresh, rest, split, carries⟩ goes
    obtain ⟨asked, valid', same⟩ := roomForBody_spec valid
    obtain ⟨-, bytes, done, -, rfl⟩ := readToEndRound_inl goes
    obtain ⟨bytes', b₁, c₁, rest', done', split', fresh', carries', -⟩ :=
      BodyReader.read_spec carries fresh asked
    rw [done] at done'
    cases done'
    refine ⟨valid'.receive, fresh', rest', ?_, carries'⟩
    rw [Utils.StringBuffer.view_receive valid', same, split, split', append_assoc]
  · rintro ⟨buf, b, c⟩ r ⟨valid, fresh, rest, split, carries⟩ leaves
    obtain ⟨asked, -, same⟩ := roomForBody_spec valid
    obtain ⟨bytes, b₁, c₁, rest', done, split', -, carries', ends⟩ :=
      BodyReader.read_spec carries fresh asked
    simp only [readToEndRound, done] at leaves
    split at leaves
    · rename_i complete
      cases leaves
      rw [(carries.isComplete complete).1, append_nil] at split
      exact ⟨_, _, _, rfl, split.symm⟩
    split at leaves
    · rename_i empty
      cases leaves
      rw [split', empty, (carries'.isComplete (ends empty)).1, append_nil, append_nil] at split
      exact ⟨_, _, _, rfl, same.trans split.symm⟩
    · cases leaves
  · exact ⟨⟨Nat.le_refl _, Nat.le_refl _⟩, fresh, body, rfl, carries⟩

/-- The body of a response with a well-formed head is read by the reader that its framing
selects. -/
theorem readResponse_head (code : 100 ≤ n ∧ n ≤ 999) (clean : 10 ∉ reason) (fields : List Field)
    (framed : messageFraming (collect .SetCookie fields []) = .ok (some (mode, length)))
    (valid : c.Valid)
    (whole : c.unread = HeadReader.encodeLines (responseLines n reason fields) ++ rest) :
    ∃ d : Source, d.Valid ∧ d.unread = rest ∧
      readResponse false c = (readToEnd {} (.create mode length) d).map
        fun r => (parsedResponse n reason fields mode length, r.1.view) := by
  obtain ⟨d, parsed, valid', rest'⟩ := responseHead.run_parses 0
    (parses_response code reason fields framed) valid whole
    (single_responseLines n clean fields) (fun _ _ _ _ => rfl) (fun _ _ => rfl)
  refine ⟨d, valid', rest', ?_⟩
  simp only [readResponse, HeadReader.parseNext, parsed, bind, Except.bind,
    HttpParser.extractResult]
  have modes : (parsedResponse n reason fields mode length).transferMode = mode ∧
      (parsedResponse n reason fields mode length).contentLength = length := ⟨rfl, rfl⟩
  simp only [modes.1, modes.2, Bool.false_eq_true, if_false]
  cases readToEnd {} (.create mode length) d <;> rfl

end Nitrocoro.Http
