import Nitrocoro.Http.Head
import Nitrocoro.Http.Wire

/-! The request parser on well-formed heads. -/
namespace Nitrocoro.Http
open Text RequestParser
open List (replicate append_assoc take_left drop_left')
open List hiding span tail

theorem OneLine.append_right (single : OneLine b) (clean : 13 ∉ a) : OneLine (a ++ b) := by
  induction a with
  | nil => exact single
  | cons x a ih =>
    have notHere : ¬ crlf <+: x :: (a ++ b) := by
      intro here
      have start : 13 = x := (cons_prefix_cons.mp here).1
      exact clean (start ▸ mem_cons_self)
    rw [OneLine, cons_append, find, if_neg notHere, ih fun mem => clean (mem_cons_of_mem _ mem)]
    rfl

theorem oneLine_of_not_mem (clean : 10 ∉ s) : OneLine s := by
  rw [OneLine, find_none_iff]
  intro inside
  exact clean (inside.subset (by decide))

theorem OneLine.append_left (single : OneLine a) (clean : 10 ∉ b) : OneLine (a ++ b) := by
  induction a with
  | nil => exact oneLine_of_not_mem clean
  | cons x a ih =>
    simp only [OneLine, find] at single ih
    split at single
    · cases single
    rename_i notHere
    have notHere' : ¬ crlf <+: x :: (a ++ b) := by
      intro here
      obtain ⟨start, next⟩ := cons_prefix_cons.mp here
      cases a with
      | nil => exact clean (next.subset (by decide))
      | cons y a => exact notHere (by simpa [crlf] using ⟨start, (cons_prefix_cons.mp next).1⟩)
    rw [OneLine, cons_append, find, if_neg notHere', ih (Option.map_eq_none_iff.mp single)]
    rfl

theorem token_clean (token : isValidToken name) (mem : c ∈ name) :
    c ≠ 32 ∧ c ≠ 58 ∧ c ≠ 13 ∧ c ≠ 10 := by
  simp only [isValidToken, Bool.and_eq_true, all_eq_true, decide_eq_true_eq] at token
  obtain ⟨⟨low, -⟩, separator⟩ := token.2 c mem
  refine ⟨?_, ?_, ?_, ?_⟩
  · rintro rfl
    exact absurd low (by decide)
  · rintro rfl
    exact separator (by decide)
  · rintro rfl
    exact absurd low (by decide)
  · rintro rfl
    exact absurd low (by decide)

theorem token_trimmed (token : isValidToken name) : Trimmed 32 name := by
  constructor
  · intro first
    exact (token_clean token (mem_of_mem_head? first)).1 rfl
  · intro last
    exact (token_clean token (mem_of_getLast? last)).1 rfl

theorem token_toLower (token : isValidToken name) : isValidToken (toLower name) := by
  have kept : ∀ c : UInt8, (32 < c && c < 127 && c ∉ separators) →
      (32 < tolower c && tolower c < 127 && tolower c ∉ separators) := forall_byte (by decide +kernel)
  simp only [isValidToken, Bool.and_eq_true, all_eq_true] at token kept ⊢
  refine ⟨by simpa [toLower] using token.1, ?_⟩
  intro c mem
  obtain ⟨d, member, rfl⟩ := mem_map.mp mem
  exact kept d (token.2 d member)

theorem headerValue_colon (before after : Bytes) :
    headerValue (before ++ 58 :: after) before.length = .ok (trim 32 after) := by
  obtain ⟨k, v, m, rfl, trimmed, trims⟩ := exists_padded 32 after
  have start : before.length + 1 = (before ++ [58]).length := by simp
  have line : before ++ 58 :: (replicate k 32 ++ (v ++ replicate m 32)) =
      (before ++ [58]) ++ (replicate k 32 ++ (v ++ replicate m 32)) := by simp
  rw [headerValue, trims, line, start]
  by_cases empty : v = []
  · rw [empty, nil_append, replicate_append_replicate, firstNotOf_replicate]
  · have last := lastNotOf_padded (s := before ++ [58] ++ replicate k 32) (k := m) trimmed empty
    rw [append_assoc, length_append, length_replicate] at last
    rw [firstNotOf_padded trimmed empty, last]
    simp only [substrOrThrow, substr_padded empty]

theorem parseHeaderLine_colon (absent : 58 ∉ before) (after : Bytes) :
    ∃ name, parseHeaderLine (before ++ 58 :: after) = .ok ⟨name, trim 32 after⟩ ∧
      (trim 32 before ≠ [] → name = trim 32 before) ∧
      (trim 32 before = [] → ¬ isValidToken name) := by
  obtain ⟨k, v, m, padded, trimmed, trims⟩ := exists_padded 32 before
  rw [trims]
  simp only [parseHeaderLine, findChar_append absent, take_left, headerValue_colon]
  by_cases empty : v = []
  · -- the name begins with the colon
    rw [empty, nil_append, replicate_append_replicate] at padded
    have colon := firstNotOf_append (s := []) (k := k + m) (t := after)
      (by decide : (58 : UInt8) ≠ 32)
    have rest : (before ++ 58 :: after).drop (k + m) = 58 :: after := drop_left' (by simp [padded])
    have inside : ¬ (before ++ 58 :: after).length < k + m := by simp [padded]
    rw [nil_append, ← padded, length_nil, Nat.zero_add] at colon
    simp only [colon, substrOrThrow, substr, if_neg inside, rest]
    refine ⟨_, rfl, absurd empty, fun _ token => ?_⟩
    split at token
    · rename_i n _
      cases n with
      | zero => exact token_nonempty token rfl
      | succ n => exact (token_clean token mem_cons_self).2.1 rfl
    · exact (token_clean token mem_cons_self).2.1 rfl
  · have line : before ++ 58 :: after =
        replicate k 32 ++ (v ++ (replicate m 32 ++ 58 :: after)) := by simp [padded]
    have first := firstNotOf_padded (s := []) (k := k) (t := replicate m 32 ++ 58 :: after)
      trimmed empty
    have last := lastNotOf_padded (s := replicate k 32) (k := m) trimmed empty
    have cut := substr_padded (s := []) (c := 32) (k := k) (t := replicate m 32 ++ 58 :: after) empty
    have some : before.length ≠ 0 := by simp [padded, empty]
    simp only [nil_append, length_nil, Nat.zero_add, ← line] at first cut
    rw [← padded, length_replicate] at last
    simp only [if_neg some, first, last, substrOrThrow, cut]
    exact ⟨v, rfl, fun _ => rfl, fun none => absurd none empty⟩

theorem parseHeaderLine_plain (absent : 58 ∉ line) : parseHeaderLine line = .ok {} := by
  simp only [parseHeaderLine, findChar_eq_none absent]

theorem parseHeaderLine_ok (line : Bytes) : ∃ header, parseHeaderLine line = .ok header := by
  by_cases colon : 58 ∈ line
  · obtain ⟨before, after, rfl, absent⟩ := eq_append_cons_of_mem colon
    obtain ⟨name, cut, -⟩ := parseHeaderLine_colon absent after
    exact ⟨_, cut⟩
  · exact ⟨_, parseHeaderLine_plain colon⟩

/-- Letters, digits and the marks that may stand in a token. -/
def TokenChar (c : UInt8) : Prop :=
  48 ≤ c ∧ c ≤ 57 ∨ 65 ≤ c ∧ c ≤ 90 ∨ 97 ≤ c ∧ c ≤ 122 ∨ c ∈ ascii "!#$%&'*+-.^_`|~"

instance tokenChar_decidable (c : UInt8) : Decidable (TokenChar c) :=
  inferInstanceAs (Decidable (_ ∨ _))

theorem isValidToken_iff : isValidToken name ↔ name ≠ [] ∧ ∀ c ∈ name, TokenChar c := by
  have chars : ∀ c : UInt8, (32 < c && c < 127 && c ∉ separators) = decide (TokenChar c) :=
    forall_byte (by decide +kernel)
  simp only [isValidToken, chars, Bool.and_eq_true, decide_eq_true_eq, all_eq_true]

/-- A line has a header exactly if there is a token before its first colon. -/
theorem header_of_line (line : Bytes) : ∃ header, parseHeaderLine line = .ok header ∧
    ∀ name value, header = ⟨name, value⟩ ∧ ¬ (name = [] ∨ ¬ isValidToken name) ↔
      ∃ colon, findChar 58 line = some colon ∧ trim 32 (line.take colon) = name ∧
        trim 32 (line.drop (colon + 1)) = value ∧ name ≠ [] ∧ ∀ c ∈ name, TokenChar c := by
  simp only [← isValidToken_iff]
  by_cases colon : 58 ∈ line
  · obtain ⟨before, after, rfl, absent⟩ := eq_append_cons_of_mem colon
    obtain ⟨text, cut, named, unnamed⟩ := parseHeaderLine_colon absent after
    have rest : (before ++ 58 :: after).drop (before.length + 1) = after := by simp
    refine ⟨_, cut, fun name value => ?_⟩
    simp only [findChar_append absent, Option.some.injEq, exists_eq_left', take_left, rest, not_or,
      not_not]
    constructor
    · rintro ⟨⟨⟩, -, token⟩
      exact ⟨(named fun none => unnamed none token).symm, rfl, token⟩
    · rintro ⟨rfl, rfl, token⟩
      exact ⟨by rw [named (token_nonempty token)], token_nonempty token, token⟩
  · refine ⟨_, parseHeaderLine_plain colon, fun name value => ?_⟩
    simp only [findChar_eq_none colon]
    constructor
    · rintro ⟨⟨⟩, valid⟩
      exact absurd (.inl rfl) valid
    · rintro ⟨_, ⟨⟩, -⟩

namespace Field
variable (f : Field)

theorem line_eq : f.line = (f.name ++ [58]) ++ f.raw := by simp [line]

theorem parseHeaderLine_line : parseHeaderLine f.line = .ok ⟨f.name, f.value⟩ := by
  have absent : 58 ∉ f.name := fun mem => (token_clean f.token mem).2.1 rfl
  have name := trim_eq_self (token_trimmed f.token)
  have value : trim 32 f.raw = f.value := trim_padded f.trimmed
  obtain ⟨text, cut, named, -⟩ := parseHeaderLine_colon absent f.raw
  rw [named (name.symm ▸ token_nonempty f.token), name, value] at cut
  exact cut

theorem single_line : OneLine f.line := by
  have spaces :
      13 ∉ replicate f.lead (32 : UInt8) ∧ 10 ∉ replicate f.trail (32 : UInt8) := by
    constructor <;> intro mem <;> exact absurd (eq_of_mem_replicate mem) (by decide)
  rw [line_eq]
  apply ((f.single.append_left spaces.2).append_right spaces.1).append_right
  intro mem
  obtain mem | mem := mem_append.mp mem
  · exact (token_clean f.token mem).2.2.1 rfl
  · exact absurd (mem_singleton.mp mem) (by decide)

theorem line_ne_nil : f.line ≠ [] := by simp [line]

theorem header_is (known : code ≠ .Unknown) :
    (HttpHeader.ofName f.name f.value).nameCode = code ↔ f.Is code :=
  NameCode.nameToCode_eq_iff known

end Field

def Field.entry (f : Field) : Bytes × HttpHeader := (toLower f.name, .ofName f.name f.value)

theorem lookup_collect (special : NameCode) (fields : List Field) (key : Bytes) :
    (collect special fields []).lookup key =
      ((fields.filter fun f => ¬ f.Is special).map Field.entry).lookup key := by
  have built : collect special fields [] =
      ((fields.filter fun f => ¬ f.Is special).map Field.entry).foldl
        (fun m e => OrderedMap.emplace e.1 e.2 m) [] := by
    rw [foldl_map]
    rfl
  rw [built, OrderedMap.lookup_foldl_emplace, lookup_nil, Option.none_or]

theorem messageFraming_chunked {headers : HttpHeaderMap}
    (coding : headers.lookup NameCode.TransferEncoding.codeToName = some header)
    (listed : (find (ascii "chunked") header.value).isSome) :
    messageFraming headers = .ok (some (.chunked, 0)) := by
  simp only [messageFraming, coding, if_pos listed]

theorem messageFraming_counted {headers : HttpHeaderMap}
    (plain : headers.lookup NameCode.TransferEncoding.codeToName = none)
    (counted : headers.lookup NameCode.ContentLength.codeToName = some header)
    (decimal : Numeral.Digits 10 header.value)
    (length : Numeral.value 10 (header.value.filterMap (Numeral.digit 10)) = n) (fits : n < 2 ^ 64) :
    messageFraming headers = .ok (some (.contentLength, n)) := by
  have unsigned : ¬ (header.value = [] ∨ header.value.head? = some 45) := by
    rintro (empty | minus)
    · exact decimal.nonempty empty
    · exact absurd (decimal.digits 45 (mem_of_mem_head? minus)) (by decide)
  have read : Numeral.stoul 10 header.value = .ok n := by
    have := Numeral.stoul_digits (t := []) decimal (fun _ mem => by cases mem) (length ▸ fits)
    rwa [append_nil, length] at this
  simp only [messageFraming, contentLengthFraming, plain, counted, if_neg unsigned, read]

def addField (data : HttpRequest) (f : Field) : HttpRequest :=
  if f.Is .Cookie then
    { data with cookies := parseCookies f.value data.cookies }
  else
    { data with headers :=
        OrderedMap.emplace (toLower f.name) (.ofName f.name f.value) data.headers }

namespace RequestParser
variable {p : HttpParser HttpRequest} {f : Field}

theorem addHeader_field
    (clear : f.Is .ContentLength → p.data.headers.lookup NameCode.ContentLength.codeToName = none) :
    addHeader p ⟨f.name, f.value⟩ = { p with data := addField p.data f } := by
  have valid : ¬ (f.name = [] ∨ ¬ isValidToken f.name) := by
    simp [token_nonempty f.token, f.token]
  have isCookie := f.header_is (by decide : NameCode.Cookie ≠ .Unknown)
  have isLength := f.header_is (by decide : NameCode.ContentLength ≠ .Unknown)
  simp only [addHeader, if_neg valid, addField]
  by_cases cookie : f.Is .Cookie
  · rw [if_pos (isCookie.mpr cookie), if_pos cookie]
  rw [if_neg (mt isCookie.mp cookie), if_neg cookie]
  have name : (HttpHeader.ofName f.name f.value).name = toLower f.name := rfl
  rw [name]
  cases present : p.data.headers.lookup (toLower f.name) with
  | none => rfl
  | some header =>
    have other : ¬ f.Is .ContentLength := by
      intro same
      have absent := clear same
      rw [← show toLower f.name = _ from same, present] at absent
      cases absent
    have kept : ¬ ((HttpHeader.ofName f.name f.value).nameCode = .ContentLength ∧
        f.value ≠ header.value) := fun both => other (isLength.mp both.1)
    rw [OrderedMap.emplace_of_lookup present]
    exact if_neg kept

structure Clear (headers : HttpHeaderMap) (fields : List Field) : Prop where
  absent : ∀ f ∈ fields, f.Is .ContentLength →
    headers.lookup NameCode.ContentLength.codeToName = none
  once : fields.Pairwise fun f g => f.Is .ContentLength → ¬ g.Is .ContentLength

theorem Clear.tail {data : HttpRequest} (clear : Clear data.headers (f :: fields)) :
    Clear (addField data f).headers fields := by
  obtain ⟨first, rest⟩ := pairwise_cons.mp clear.once
  refine ⟨?_, rest⟩
  intro g mem isLength
  have before := clear.absent g (mem_cons_of_mem _ mem) isLength
  have other : ¬ f.Is .ContentLength := fun same => first g mem same isLength
  unfold addField
  split
  · exact before
  rw [OrderedMap.lookup_emplace, before, if_neg]
  · rfl
  · intro same
    exact other (eq_of_beq same).symm

theorem parseLine_field (started : p.state = .expectHeader)
    (clear : Clear p.data.headers (f :: fields)) :
    parseLine reg p f.line = .ok { p with data := addField p.data f } := by
  rw [parseLine_header started f.line_ne_nil f.parseHeaderLine_line,
    addHeader_field (clear.absent f mem_cons_self)]

end RequestParser

namespace Request
variable {reg : MethodRegistry} (r : Request reg)

theorem foldl_addField (fields : List Field) (data : HttpRequest) :
    fields.foldl addField data = { data with
      headers := collect .Cookie fields data.headers
      cookies := (fields.filter (Field.Is .Cookie)).foldl
        (fun m f => parseCookies f.value m) data.cookies } := by
  induction fields generalizing data with
  | nil => rfl
  | cons f fields ih =>
    rw [foldl_cons, ih]
    by_cases cookie : f.Is .Cookie
    · simp [addField, collect, cookie]
    · simp [addField, collect, cookie]

theorem lookup_headers (code : NameCode) (other : code.codeToName ≠ NameCode.Cookie.codeToName) :
    r.headers.lookup code.codeToName =
      (r.fields.find? (Field.Is code)).map fun f => .ofName f.name f.value := by
  rw [headers, lookup_collect]
  induction r.fields with
  | nil => rfl
  | cons f fields ih =>
    by_cases same : f.Is code
    · have notCookie : ¬ f.Is .Cookie := fun cookie =>
        other (show code.codeToName = _ from same.symm.trans cookie)
      simp [notCookie, Field.entry, same, show toLower f.name = _ from same]
    have missed : ¬ (code.codeToName == toLower f.name) := fun hit => same (eq_of_beq hit).symm
    rw [find?_cons_of_neg (by simpa using same), ← ih]
    by_cases cookie : f.Is .Cookie
    · rw [filter_cons_of_neg (by simpa using cookie)]
    · rw [filter_cons_of_pos (by simpa using cookie), map_cons,
        Field.entry, OrderedMap.lookup_cons_ite, if_neg missed]

end Request

namespace RequestParser
variable {p : HttpParser HttpRequest} {reg : MethodRegistry}

theorem parseTarget_spec {data : HttpRequest} {rawPath : Bytes} (query : Option Bytes)
    (plain : 63 ∉ rawPath) (fresh : data.queries = []) :
    parseTarget (requestTarget rawPath query) data = { data with
      path := if rawPath = [] then ascii "/" else Utils.urlDecode rawPath
      rawPath := rawPath
      query := query.getD []
      queries := parseQueryString (query.getD []) [] } := by
  cases query with
  | none =>
    simp only [parseTarget, requestTarget, Option.elim_none, append_nil,
      findChar_eq_none plain, fresh]
    rfl
  | some q =>
    have cut : (rawPath ++ 63 :: q).drop (rawPath.length + 1) = q := by
      rw [← singleton_append, ← append_assoc]
      exact drop_left' (by simp)
    simp only [parseTarget, requestTarget, Option.elim_some, findChar_append plain, take_left,
      cut, Option.getD_some, fresh]

theorem parseRequestLine_spec {method rawPath : Bytes} {query : Option Bytes}
    (token : isValidToken method) (registered : reg.fromString method ≠ .invalid)
    (pathPlain : 32 ∉ rawPath ∧ 63 ∉ rawPath) (queryPlain : ∀ q ∈ query, 32 ∉ q)
    (fresh : p.data.queries = []) :
    parseRequestLine reg p (requestLine method (requestTarget rawPath query)) =
      { p with
        state := .expectHeader
        data := { p.data with
          version := .http11
          method := reg.fromString method
          path := if rawPath = [] then ascii "/" else Utils.urlDecode rawPath
          rawPath := rawPath
          query := query.getD []
          queries := parseQueryString (query.getD []) [] } } := by
  have first : findChar 32 (requestLine method (requestTarget rawPath query)) = some method.length :=
    findChar_append fun mem => (token_clean token mem).1 rfl
  have targetPlain : 32 ∉ requestTarget rawPath query := by
    cases query with
    | none => simpa [requestTarget] using pathPlain.1
    | some q =>
      have := queryPlain q rfl
      simpa [requestTarget] using ⟨pathPlain.1, this⟩
  have tail : (requestLine method (requestTarget rawPath query)).drop (method.length + 1) =
      requestTarget rawPath query ++ 32 :: ascii "HTTP/1.1" := by
    rw [requestLine, ← singleton_append, ← append_assoc]
    exact drop_left' (by simp)
  have second : findChar 32 (requestTarget rawPath query ++ 32 :: ascii "HTTP/1.1") =
      some (requestTarget rawPath query).length := findChar_append targetPlain
  have version : (requestLine method (requestTarget rawPath query)).drop
      (method.length + 1 + (requestTarget rawPath query).length + 1) = ascii "HTTP/1.1" := by
    rw [Nat.add_assoc, ← drop_drop, tail, ← singleton_append, ← append_assoc]
    exact drop_left' (by simp)
  have name : (requestLine method (requestTarget rawPath query)).take method.length = method :=
    take_left
  have known : parseHttpVersion (ascii "HTTP/1.1") = .http11 := by decide
  have supported : ¬ Version.http11 = .unknown := by decide
  simp only [parseRequestLine, first, tail, second, version, name, take_left, known,
    if_neg registered, if_neg supported]
  rw [parseTarget_spec query pathPlain.2]
  exact fresh

theorem parses_fields (fields : List Field) (started : p.state = .expectHeader)
    (clear : Clear p.data.headers fields)
    (complete : (processHeaders { p with data := fields.foldl addField p.data }).state =
      .headerComplete) :
    (requestHead reg).Parses p (fields.map Field.line ++ [[]])
      (processHeaders { p with data := fields.foldl addField p.data }) := by
  induction fields generalizing p with
  | nil => exact .last (parseLine_blank started) complete
  | cons f fields ih =>
    exact .more (parseLine_field started clear) started (ih started clear.tail complete)

end RequestParser

namespace Request
variable {reg : MethodRegistry} (r : Request reg)

theorem clear : Clear [] r.fields := by
  refine ⟨fun _ _ _ => rfl, ?_⟩
  have announced := r.announced
  cases framing : r.framing with
  | absent =>
    rw [framing] at announced
    exact pairwise_of_forall_mem_list fun f mem g _ same => absurd same (announced f mem).1
  | chunked coding =>
    rw [framing] at announced
    exact pairwise_of_forall_mem_list fun f mem g _ same => absurd same (announced.1 f mem)
  | contentLength digits body =>
    rw [framing] at announced
    obtain ⟨-, -, -, -, before, f, after, split, -, -, others⟩ := announced
    rw [split, pairwise_append]
    have early : ∀ g ∈ before, ¬ g.Is .ContentLength := fun g mem => others g (by simp [mem])
    have late : ∀ g ∈ after, ¬ g.Is .ContentLength := fun g mem => others g (by simp [mem])
    refine ⟨?_, pairwise_cons.mpr ⟨fun g mem _ => late g mem, ?_⟩, ?_⟩
    · exact pairwise_of_forall_mem_list fun g mem _ _ same => absurd same (early g mem)
    · exact pairwise_of_forall_mem_list fun g mem _ _ same => absurd same (late g mem)
    · exact fun g mem _ _ same => absurd same (early g mem)

theorem find?_none (absent : ∀ f ∈ r.fields, ¬ f.Is code) : r.fields.find? (Field.Is code) = none :=
  find?_eq_none.mpr fun f mem => by simpa using absent f mem

theorem framing_headers : ∃ mode, messageFraming r.headers = .ok mode ∧
      mode.getD (.contentLength, 0) = (r.framing.mode, r.framing.length) := by
  have encoding := r.lookup_headers .TransferEncoding (by decide)
  have length := r.lookup_headers .ContentLength (by decide)
  have announced := r.announced
  cases framed : r.framing with
  | absent =>
    rw [framed] at announced
    rw [r.find?_none fun f mem => (announced f mem).2] at encoding
    rw [r.find?_none fun f mem => (announced f mem).1] at length
    refine ⟨none, ?_, rfl⟩
    simp only [messageFraming, encoding, length, contentLengthFraming, Option.map_none]
  | chunked coding =>
    rw [framed] at announced
    obtain ⟨-, f, first, listed⟩ := announced
    rw [first] at encoding
    exact ⟨some (.chunked, 0), messageFraming_chunked encoding listed, rfl⟩
  | contentLength digits body =>
    rw [framed] at announced
    obtain ⟨decimal, counted, fits, plain, before, f, after, split, isLength, value, others⟩ :=
      announced
    have first : r.fields.find? (Field.Is .ContentLength) = some f := by
      rw [split, find?_append, find?_eq_none.mpr, Option.none_or,
        find?_cons_of_pos (by simpa using isLength)]
      intro g mem
      simpa using others g (by simp [mem])
    rw [r.find?_none plain] at encoding
    rw [first] at length
    refine ⟨some (.contentLength, body.length), ?_, rfl⟩
    refine messageFraming_counted encoding length ?_ ?_ fits
    · show Numeral.Digits 10 f.value
      exact value.symm ▸ decimal
    · show Numeral.value 10 (f.value.filterMap (Numeral.digit 10)) = body.length
      exact value.symm ▸ counted

theorem processKeepAlive_headers {data : HttpRequest} (same : data.headers = r.headers)
    (version : data.version = .http11) :
    processKeepAlive data = { data with keepAlive := true } := by
  unfold processKeepAlive
  rw [same, r.lookup_headers .Connection (by decide)]
  cases found : r.fields.find? (Field.Is .Connection) with
  | none => simp [version]
  | some f => simp [HttpHeader.ofName, r.persistent f found]

def started : HttpParser HttpRequest where
  state := .expectHeader
  data := { ({} : HttpRequest) with
    version := .http11
    method := reg.fromString r.method
    path := if r.rawPath = [] then ascii "/" else Utils.urlDecode r.rawPath
    rawPath := r.rawPath
    query := r.query.getD []
    queries := parseQueryString (r.query.getD []) [] }

theorem started_fields : r.fields.foldl addField r.started.data =
    { r.started.data with headers := r.headers, cookies := r.cookies } :=
  foldl_addField r.fields r.started.data

theorem processHeaders_fields :
    processHeaders { r.started with data := r.fields.foldl addField r.started.data } =
      { data := r.message, state := .headerComplete } := by
  obtain ⟨mode, framed, same⟩ := r.framing_headers
  rw [started_fields]
  simp only [processHeaders, framed, same]
  rw [r.processKeepAlive_headers rfl rfl]
  rfl

theorem parses : (requestHead reg).Parses { data := (requestHead reg).empty } r.lines
    { data := r.message, state := .headerComplete } := by
  have done := r.processHeaders_fields
  refine .more (t := r.started) ?_ rfl ?_
  · exact congrArg Except.ok (parseRequestLine_spec r.token r.registered
      ⟨r.pathPlain.1, r.pathPlain.2.1⟩ (fun q mem => (r.queryPlain q mem).1) rfl)
  · rw [← done]
    exact parses_fields r.fields rfl r.clear (by rw [done])

theorem single_lines : ∀ line ∈ r.lines, OneLine line := by
  intro line mem
  obtain rfl | mem := mem_cons.mp mem
  · apply oneLine_of_not_mem
    intro mem
    have method : 10 ∉ r.method := fun mem => (token_clean r.token mem).2.2.2 rfl
    have query : 10 ∉ r.query.elim [] (63 :: ·) := by
      cases asked : r.query with
      | none => exact not_mem_nil
      | some q => simpa using (r.queryPlain q asked).2
    simp only [requestLine, requestTarget, mem_append, mem_cons] at mem
    obtain mem | mem | (mem | mem) | mem | mem := mem
    · exact method mem
    · exact absurd mem (by decide)
    · exact r.pathPlain.2.2 mem
    · exact query mem
    · exact absurd mem (by decide)
    · exact absurd mem (by decide)
  · obtain mem | mem := mem_append.mp mem
    · obtain ⟨f, -, rfl⟩ := mem_map.mp mem
      exact f.single_line
    · rw [mem_singleton.mp mem]
      decide

theorem short_lines : ∀ line ∈ r.lines, line.length < 8192 := by
  intro line mem
  obtain rfl | mem := mem_cons.mp mem
  · exact r.short
  obtain mem | mem := mem_append.mp mem
  · obtain ⟨f, member, rfl⟩ := mem_map.mp mem
    exact r.shortFields f member
  · rw [mem_singleton.mp mem]
    decide

theorem parseNext (valid : c.Valid) (whole : c.unread = r.encode ++ tail) :
    ∃ d, (requestHead reg).parseNext c = .ok ({ message := r.message }, d) ∧ d.Valid ∧
      d.unread = r.framing.encode ++ tail := by
  have few : ∀ n ≤ 0 + r.lines.length, (requestHead reg).tooMany n = false := by
    intro n le
    have := r.few
    simp only [lines, length_cons, length_append, length_map, length_nil] at le
    exact decide_eq_false (by omega)
  have short : ∀ line ∈ r.lines, ∀ n ≤ line.length + 1,
      (requestHead reg).wait.tooLong n = false := by
    intro line mem n le
    have := r.short_lines line mem
    exact decide_eq_false (by omega)
  exact (requestHead reg).run_parses 0 r.parses valid
    (by rw [whole, encode, append_assoc]; rfl) r.single_lines short few

end Request
end Nitrocoro.Http
