import Nitrocoro.Http.BodyReaderProofs

/-! Whole sequences of reads of a chunked body: what they return for a well-formed one, and what is
known of the bytes that a reader has taken when it is complete. -/
namespace Nitrocoro.Http
open Text Source
open List (append_assoc flatMap_cons nil_prefix)
open List hiding tail

namespace ChunkedReader
variable {r s t : ChunkedReader} {c d e : Source} {tail : Bytes} {pieces : List Bytes}

def reads : List Nat → ChunkedReader → Source → Except Exn (List Bytes × ChunkedReader × Source)
  | [], r, c => .ok ([], r, c)
  | len :: lens, r, c => do
    let (bytes, r, c) ← readImpl len r c
    let (pieces, r, c) ← reads lens r c
    .ok (bytes :: pieces, r, c)

theorem reads_cons (read : readImpl len r c = .ok (bytes, s, d))
    (done : reads lens s d = .ok (pieces, t, e)) :
    reads (len :: lens) r c = .ok (bytes :: pieces, t, e) := by
  simp only [reads, read, done, bind, Except.bind]

theorem reads_cons_ok (done : reads (len :: lens) r c = .ok (pieces, t, e)) :
    ∃ bytes s d more, readImpl len r c = .ok (bytes, s, d) ∧ reads lens s d = .ok (more, t, e) ∧
      pieces = bytes :: more := by
  obtain ⟨⟨bytes, s, d⟩, read, done⟩ := bind_eq_ok.mp done
  obtain ⟨⟨more, t', e'⟩, done, same⟩ := bind_eq_ok.mp done
  cases same
  exact ⟨bytes, s, d, more, read, done, rfl⟩

/-- A size line was taken off the unread bytes, and perhaps the trailer after it. -/
theorem parseChunkSize_ok (valid : c.Valid) (parsed : parseChunkSize c = .ok (r, d)) :
    ∃ line size e, OneLine line ∧ line.length ≤ 64 ∧ Numeral.stoul 16 line = .ok size ∧
      Source.Valid e ∧ c.unread = line ++ (crlf ++ e.unread) ∧
      (size = 0 ∧ skipTrailer e = .ok d ∧ r = { state := .complete } ∨
        size ≠ 0 ∧ d = e ∧ r = { state := .readData, currentChunkSize := size }) := by
  simp only [parseChunkSize] at parsed
  split at parsed
  · cases parsed
  · cases parsed
  rename_i pos f found
  obtain ⟨line, single, rfl, text, valid', whole⟩ := sizeLine.awaitLine_takes valid found
  obtain ⟨short, size, read, ends⟩ := startChunk_ok parsed
  rw [text] at read
  exact ⟨line, size, _, single, Nat.le_of_not_lt short, read, valid', whole, ends⟩

def Counted (r : ChunkedReader) : Prop := r.currentChunkRead ≤ r.currentChunkSize

theorem Counted.readData (counted : Counted r) (valid : c.Valid)
    (done : readData len r c = .ok (bytes, s, d)) : Counted s := by
  obtain ⟨e, taken, ends⟩ := readData_ok done
  have limit := (take_ok valid taken).2.2
  have counted : r.currentChunkRead ≤ r.currentChunkSize := counted
  rcases ends with ⟨-, -, rfl⟩ | ⟨-, -, rfl⟩
  · simp only [Counted]
    omega
  · simp only [Counted]
    omega

theorem Counted.readImpl (counted : Counted r) (valid : c.Valid)
    (done : readImpl len r c = .ok (bytes, s, d)) : Counted s := by
  simp only [ChunkedReader.readImpl] at done
  split at done
  · cases done
    exact counted
  · exact counted.readData valid done
  obtain ⟨⟨t, e⟩, parsed, done⟩ := bind_eq_ok.mp done
  obtain ⟨line, size, f, -, -, -, valid', -, ends⟩ := parseChunkSize_ok valid parsed
  rcases ends with ⟨-, -, rfl⟩ | ⟨-, rfl, rfl⟩
  · cases done
    exact Nat.le_refl _
  · exact Counted.readData (Nat.zero_le _) valid' done

theorem reads_complete (complete : r.state = .complete) (c : Source) (lens : List Nat) :
    reads lens r c = .ok (replicate lens.length [], r, c) := by
  induction lens with
  | nil => rfl
  | cons len lens ih =>
    have read : readImpl len r c = .ok ([], r, c) := by simp only [readImpl, complete]
    exact reads_cons read ih

/-- The reads of a well-formed body return its data, however it arrives, and after that nothing. -/
theorem reads_spec (carries : Carries tail (.chunked r) c body) (counted : Counted r)
    (asked : ∀ len ∈ lens, 0 < len) :
    ∃ delivered zeros s d, reads lens r c = .ok (delivered ++ replicate zeros [], s, d) ∧
      (∀ piece ∈ delivered, piece ≠ []) ∧ delivered.flatten <+: body ∧ Counted s ∧
      (0 < zeros → delivered.flatten = body ∧ s.state = .complete ∧ d.unread = tail) ∧
      (zeros = 0 → lens.length ≤ body.length) := by
  induction lens generalizing r c body with
  | nil =>
    exact ⟨[], 0, r, c, rfl, by simp, nil_prefix, counted, by simp, fun _ => Nat.zero_le _⟩
  | cons len lens ih =>
    by_cases complete : r.state = .complete
    · obtain ⟨rfl, -, rest⟩ := carries.isComplete (decide_eq_true complete)
      refine ⟨[], lens.length + 1, r, c, reads_complete complete c (len :: lens), by simp,
        nil_prefix, counted, fun _ => ⟨rfl, complete, rest⟩, by simp⟩
    obtain ⟨bytes, impl, d, rest, read, rfl, carries', ends⟩ :=
      carries.readImpl (decide_eq_false complete) (asked len mem_cons_self)
    obtain ⟨⟨bytes', s, d'⟩, read, same⟩ := bind_eq_ok.mp read
    cases same
    have counted' := counted.readImpl carries.valid read
    by_cases empty : bytes = []
    · have complete' : s.state = .complete := of_decide_eq_true (ends empty)
      obtain ⟨rfl, -, unread⟩ := carries'.isComplete (ends empty)
      subst empty
      refine ⟨[], lens.length + 1, s, d, reads_cons read (reads_complete complete' d lens),
        by simp, nil_prefix, counted', fun _ => ⟨rfl, complete', unread⟩, by simp⟩
    obtain ⟨delivered, zeros, t, e, done, some, starts, counted'', ended, enough⟩ :=
      ih carries' counted' fun len mem => asked len (mem_cons_of_mem _ mem)
    refine ⟨bytes :: delivered, zeros, t, e, reads_cons read done, ?_, ?_, counted'', ?_, ?_⟩
    · simpa using ⟨empty, some⟩
    · exact (prefix_append_right_inj bytes).mpr starts
    · intro more
      rw [flatten_cons, (ended more).1]
      exact ⟨rfl, (ended more).2⟩
    intro none
    have := length_pos_iff.mpr empty
    rw [length_cons, length_append]
    omega

/-- Of a well-formed body that anything may follow, the reads return the data, then nothing, and
they leave what follows. -/
theorem reads_deliver_body (body : ChunkedBody) (moderate : body.Moderate) (valid : c.Valid)
    (whole : c.unread = body.encode ++ tail) (lens : List Nat) (asked : ∀ len ∈ lens, 0 < len) :
    ∃ delivered zeros r d, reads lens {} c = .ok (delivered ++ List.replicate zeros [], r, d) ∧
      (∀ piece ∈ delivered, piece ≠ []) ∧ delivered.flatten <+: body.data ∧
      r.currentChunkRead ≤ r.currentChunkSize ∧
      (0 < zeros → delivered.flatten = body.data ∧ r.state = .complete ∧ d.unread = tail) ∧
      (zeros = 0 → lens.length ≤ body.data.length) :=
  reads_spec (.size body moderate valid whole) (Nat.le_refl 0) asked

end ChunkedReader

def Source.holding (held rest : Bytes) : Source where
  buffer := ⟨held, 0, held.length⟩
  stream := { rest }

@[simp] theorem Source.view_holding : (holding held rest).view = held := take_length

@[simp] theorem Source.unread_holding : (holding held rest).unread = held ++ rest :=
  congrArg (· ++ rest) view_holding

theorem Source.valid_holding : (holding held rest).Valid := ⟨Nat.zero_le _, Nat.le_refl _⟩

def Trailer.tag : Trailer := ⟨ascii "t:1", by decide, by decide, by decide⟩

def letters : ChunkedBody where
  chunks :=
    [{ sizeLine := ⟨ascii "3", [], ⟨by decide, by decide +kernel⟩, no_extension, by decide,
        by decide⟩
       data := ascii "abc"
       nonempty := by decide
       counted := by decide
       fits := by decide },
     { sizeLine := ⟨ascii "2", ascii ";x", ⟨by decide, by decide +kernel⟩, by decide +kernel,
        by decide, by decide⟩
       data := ascii "de"
       nonempty := by decide
       counted := by decide
       fits := by decide }]
  last := .zero
  trailers := [.tag]
  zero := SizeLine.size_zero

theorem ChunkedReader.reads_deliver_letters : ∃ delivered zeros r d,
      reads [2, 2, 1, 4, 7, 1] {} (.holding (letters.encode.take 6) (letters.encode.drop 6 ++ [71])) =
        .ok (delivered ++ List.replicate zeros [], r, d) ∧
      0 < zeros ∧ delivered.flatten = ascii "abcde" ∧ r.state = .complete ∧ d.unread = [71] := by
  have whole : (Source.holding (letters.encode.take 6) (letters.encode.drop 6 ++ [71])).unread =
      letters.encode ++ [71] := by
    rw [unread_holding, ← append_assoc, take_append_drop]
  obtain ⟨delivered, zeros, r, d, done, -, -, -, ends, short⟩ :=
    reads_deliver_body letters ⟨by decide, by decide⟩ valid_holding whole
      [2, 2, 1, 4, 7, 1] (by decide)
  have some : 0 < zeros := Nat.pos_of_ne_zero fun none => absurd (short none) (by decide)
  exact ⟨delivered, zeros, r, d, done, some, ends some⟩

namespace ChunkedReader
variable {r s t : ChunkedReader} {c d e : Source} {tail : Bytes} {pieces : List Bytes}

theorem skipCRLF_ok (valid : c.Valid) (skipped : skipCRLF c = .ok d) :
    d.Valid ∧ ∃ ending, ending.length = 2 ∧ c.unread = ending ++ d.unread := by
  refine Loop.run_spec skipCRLF_decreases (fun e => e.Valid ∧ e.unread = c.unread)
    (fun result => ∀ d, result = .ok d → Source.Valid d ∧
      ∃ ending : Bytes, ending.length = 2 ∧ c.unread = ending ++ d.unread)
    ?_ ?_ ⟨valid, rfl⟩ d skipped
  · rintro e f ⟨valid, same⟩ goes
    have fetched := (skipCRLFRound_inl goes).2
    exact ⟨fetch_valid valid fetched, (fetch_unread valid fetched).trans same⟩
  rintro e result ⟨valid, same⟩ leaves d rfl
  simp only [skipCRLFRound] at leaves
  split at leaves
  · split at leaves <;> cases leaves
  cases leaves
  have within : 2 ≤ e.view.length := by
    rw [valid.length_view]
    omega
  refine ⟨valid.consume within, e.unread.take 2, ?_, ?_⟩
  · rw [length_take]
    have := e.view_start.length_le
    omega
  · rw [consume_unread within, take_append_drop, same]

theorem skipTrailer_ok (valid : c.Valid) (skipped : skipTrailer c = .ok d) :
    d.Valid ∧ ∃ trailers : List Bytes, (∀ line ∈ trailers, OneLine line ∧ line ≠ []) ∧
      c.unread = trailers.flatMap (· ++ crlf) ++ (crlf ++ d.unread) := by
  refine Loop.run_spec skipTrailer_decreases
    (fun state => state.2.Valid ∧ ∃ trailers : List Bytes,
      (∀ line ∈ trailers, OneLine line ∧ line ≠ []) ∧
      c.unread = trailers.flatMap (· ++ crlf) ++ state.2.unread)
    (fun result => ∀ d, result = .ok d → Source.Valid d ∧ ∃ trailers : List Bytes,
      (∀ line ∈ trailers, OneLine line ∧ line ≠ []) ∧
      c.unread = trailers.flatMap (· ++ crlf) ++ (crlf ++ d.unread))
    ?_ ?_ ⟨valid, [], by simp, rfl⟩ d skipped
  · rintro ⟨lines, e⟩ state ⟨valid, trailers, proper, cut⟩ goes
    obtain ⟨pos, f, found, some, -, rfl⟩ := skipTrailerRound_inl goes
    obtain ⟨line, single, rfl, -, valid', whole⟩ := trailerLine.awaitLine_takes valid found
    refine ⟨valid', trailers ++ [line], ?_, ?_⟩
    · intro other mem
      rcases mem_append.mp mem with earlier | last
      · exact proper other earlier
      · obtain rfl := mem_singleton.mp last
        exact ⟨single, length_pos_iff.mp (Nat.pos_of_ne_zero some)⟩
    · rw [cut, whole]
      simp
  · rintro ⟨lines, e⟩ result ⟨valid, trailers, proper, cut⟩ leaves d rfl
    simp only [skipTrailerRound] at leaves
    split at leaves
    · cases leaves
    · cases leaves
    rename_i pos f found
    obtain ⟨line, -, rfl, -, valid', whole⟩ := trailerLine.awaitLine_takes valid found
    split at leaves
    · rename_i empty
      cases leaves
      obtain rfl := length_eq_zero_iff.mp empty
      exact ⟨valid', trailers, proper, cut.trans (congrArg _ whole)⟩
    · split at leaves <;> cases leaves

end ChunkedReader

/-- A chunk as the reader takes it: two bytes of any kind follow its data. -/
structure TakenChunk where
  sizeLine : Bytes
  data : Bytes
  ending : Bytes
  single : OneLine sizeLine
  counted : Numeral.stoul 16 sizeLine = .ok data.length
  nonempty : data ≠ []
  two : ending.length = 2

def TakenChunk.encode (chunk : TakenChunk) : Bytes :=
  chunk.sizeLine ++ (crlf ++ (chunk.data ++ chunk.ending))

structure TakenBody where
  chunks : List TakenChunk
  last : Bytes
  trailers : List Bytes
  single : OneLine last
  zero : Numeral.stoul 16 last = .ok 0
  lines : ∀ line ∈ trailers, OneLine line ∧ line ≠ []

namespace TakenBody

def data (body : TakenBody) : Bytes := body.chunks.flatMap TakenChunk.data

def endings (body : TakenBody) : List Bytes := body.chunks.map TakenChunk.ending

def close (body : TakenBody) : Bytes :=
  body.last ++ (crlf ++ (body.trailers.flatMap (· ++ crlf) ++ crlf))

def encode (body : TakenBody) : Bytes := body.chunks.flatMap TakenChunk.encode ++ body.close

def Terminated (body : TakenBody) : Prop := ∀ ending ∈ body.endings, ending = crlf

def push (chunk : TakenChunk) (body : TakenBody) : TakenBody :=
  { body with chunks := chunk :: body.chunks }

theorem encode_push (chunk : TakenChunk) (body : TakenBody) :
    (push chunk body).encode = chunk.encode ++ body.encode := by
  rw [encode, push, flatMap_cons, append_assoc]
  rfl

end TakenBody

/-- Cut by their size lines, up to that of size zero, the bytes have CR LF behind the data of each
chunk. -/
inductive Delimited : Bytes → Prop where
  | last : OneLine line → Numeral.stoul 16 line = .ok 0 → Delimited (line ++ (crlf ++ rest))
  | chunk : OneLine line → Numeral.stoul 16 line = .ok data.length → data ≠ [] →
      Delimited rest → Delimited (line ++ (crlf ++ (data ++ (crlf ++ rest))))

theorem Delimited.cut (single : OneLine line) (delimited : Delimited (line ++ (crlf ++ rest))) :
    Numeral.stoul 16 line = .ok 0 ∨
      ∃ data tail, Numeral.stoul 16 line = .ok data.length ∧ rest = data ++ (crlf ++ tail) ∧
        Delimited tail := by
  generalize whole : line ++ (crlf ++ rest) = bytes at delimited
  cases delimited with
  | last single' zero =>
    obtain ⟨rfl, -⟩ := single.cut_inj single' whole
    exact .inl zero
  | @chunk line' data tail single' counted some others =>
    obtain ⟨rfl, rfl⟩ := single.cut_inj single' whole
    exact .inr ⟨data, tail, counted, rfl, others⟩

/-- Whether the chunks that were taken end in CR LF can be seen from the bytes. -/
theorem TakenBody.terminated_iff (body : TakenBody) :
    body.Terminated ↔ Delimited (body.encode ++ tail) := by
  obtain ⟨chunks, last, trailers, single, zero, lines⟩ := body
  induction chunks with
  | nil =>
    refine iff_of_true (forall_mem_nil _) ?_
    simp only [encode, close, flatMap_nil, nil_append, append_assoc]
    exact .last single zero
  | cons chunk chunks ih =>
    have whole := encode_push chunk ⟨chunks, last, trailers, single, zero, lines⟩
    simp only [push] at whole
    rw [Terminated, endings, map_cons, forall_mem_cons]
    simp only [whole, TakenChunk.encode, append_assoc]
    constructor
    · rintro ⟨ending, others⟩
      rw [ending]
      exact .chunk chunk.single chunk.counted chunk.nonempty (ih.mp others)
    · intro delimited
      rcases delimited.cut chunk.single with none | ⟨data, rest, counted, same, others⟩
      · rw [chunk.counted] at none
        exact absurd (length_eq_zero_iff.mp (Except.ok.inj none)) chunk.nonempty
      rw [chunk.counted] at counted
      obtain ⟨-, same⟩ := append_inj same (Except.ok.inj counted)
      obtain ⟨ending, rfl⟩ := append_inj same chunk.two
      exact ⟨ending, ih.mpr others⟩

namespace ChunkedReader
/-- What the reader takes from here to its completion, with the data it delivers; `tail` is what it
leaves. -/
inductive Takes (tail : Bytes) : ChunkedReader → Source → Bytes → Prop where
  | size (body : TakenBody) : c.unread = body.encode ++ tail →
      Takes tail ⟨.readSize, total, got⟩ c body.data
  | data (body : TakenBody) : part ≠ [] → total = got + part.length → ending.length = 2 →
      c.unread = part ++ (ending ++ (body.encode ++ tail)) →
      Takes tail ⟨.readData, total, got⟩ c (part ++ body.data)
  | complete : c.unread = tail → Takes tail ⟨.complete, total, got⟩ c []

variable {r s t : ChunkedReader} {c d e : Source} {tail data : Bytes} {pieces : List Bytes}

def Open (r : ChunkedReader) : Prop :=
  r.state = .readData → r.currentChunkRead < r.currentChunkSize

theorem Takes.size_of_data (single : OneLine line) (read : Numeral.stoul 16 line = .ok n)
    (cut : c.unread = line ++ (crlf ++ e.unread)) (takes : Takes tail ⟨.readData, n, 0⟩ e data) :
    Takes tail ⟨.readSize, total, got⟩ c data := by
  cases takes with
  | data body some counted two whole =>
    rename_i part ending
    rw [Nat.zero_add] at counted
    subst counted
    let chunk : TakenChunk := ⟨line, part, ending, single, read, some, two⟩
    refine .size (body.push chunk) ?_
    rw [cut, whole, TakenBody.encode_push]
    simp only [TakenChunk.encode, append_assoc, chunk]

theorem Takes.size_of_complete (single : OneLine line) (read : Numeral.stoul 16 line = .ok 0)
    (cut : c.unread = line ++ (crlf ++ e.unread)) (valid : e.Valid) (skipped : skipTrailer e = .ok d)
    (takes : Takes tail { state := .complete } d data) :
    Takes tail ⟨.readSize, total, got⟩ c data := by
  obtain ⟨-, trailers, lines, whole⟩ := skipTrailer_ok valid skipped
  cases takes with
  | complete rest =>
    let body : TakenBody := ⟨[], line, trailers, single, read, lines⟩
    refine .size body ?_
    rw [cut, whole, rest]
    simp [TakenBody.encode, TakenBody.close, body]

theorem Takes.readData (valid : c.Valid) (inside : got < total)
    (done : readData len ⟨.readData, total, got⟩ c = .ok (bytes, s, d))
    (takes : Takes tail s d data) : Takes tail ⟨.readData, total, got⟩ c (bytes ++ data) := by
  obtain ⟨e, taken, ends⟩ := readData_ok done
  obtain ⟨valid', cut, limit⟩ := take_ok valid taken
  dsimp only at limit ends
  rcases ends with ⟨whole, skipped, rfl⟩ | ⟨within, rfl, rfl⟩
  · obtain ⟨-, ending, two, rest⟩ := skipCRLF_ok valid' skipped
    cases takes with
    | size body left =>
      have some : bytes ≠ [] := by
        rintro rfl
        exact absurd whole (Nat.not_le.mpr inside)
      refine .data body some (by omega) two ?_
      rw [cut, rest, left]
  · cases takes with
    | data body some counted two left =>
      rw [← append_assoc]
      refine .data body (append_ne_nil_of_right_ne_nil _ some) ?_ two ?_
      · rw [length_append]
        omega
      · rw [cut, left, append_assoc]

theorem Takes.readImpl (valid : c.Valid) (opened : Open r)
    (done : readImpl len r c = .ok (bytes, s, d)) (takes : Takes tail s d data) :
    Takes tail r c (bytes ++ data) := by
  obtain ⟨state, total, got⟩ := r
  cases state with
  | complete =>
    cases done
    exact takes
  | readData => exact Takes.readData valid (opened rfl) done takes
  | readSize =>
    obtain ⟨⟨t, e⟩, parsed, done⟩ := bind_eq_ok.mp done
    obtain ⟨line, n, f, single, -, read, valid', cut, ends⟩ := parseChunkSize_ok valid parsed
    rcases ends with ⟨rfl, skipped, rfl⟩ | ⟨some, rfl, rfl⟩
    · cases done
      exact .size_of_complete single read cut valid' skipped takes
    · have inside := Takes.readData valid' (Nat.pos_of_ne_zero some) done takes
      exact .size_of_data single read cut inside

theorem readData_opens (valid : c.Valid) (done : readData len r c = .ok (bytes, s, d)) :
    d.Valid ∧ Open s := by
  obtain ⟨e, taken, ends⟩ := readData_ok done
  obtain ⟨valid', -, -⟩ := take_ok valid taken
  rcases ends with ⟨-, skipped, rfl⟩ | ⟨within, rfl, rfl⟩
  · exact ⟨(skipCRLF_ok valid' skipped).1, nofun⟩
  · exact ⟨valid', fun _ => Nat.lt_of_not_le within⟩

theorem readImpl_opens (valid : c.Valid) (opened : Open r)
    (done : readImpl len r c = .ok (bytes, s, d)) : d.Valid ∧ Open s := by
  simp only [ChunkedReader.readImpl] at done
  split at done
  · cases done
    exact ⟨valid, opened⟩
  · exact readData_opens valid done
  obtain ⟨⟨t, e⟩, parsed, done⟩ := bind_eq_ok.mp done
  obtain ⟨-, n, f, -, -, -, valid', -, ends⟩ := parseChunkSize_ok valid parsed
  rcases ends with ⟨-, skipped, rfl⟩ | ⟨-, rfl, rfl⟩
  · cases done
    exact ⟨(skipTrailer_ok valid' skipped).1, by rintro ⟨⟩⟩
  · exact readData_opens valid' done

theorem reads_takes (valid : c.Valid) (opened : Open r)
    (done : reads lens r c = .ok (pieces, s, d)) (complete : s.state = .complete) :
    Takes d.unread r c pieces.flatten := by
  induction lens generalizing r c pieces with
  | nil =>
    cases done
    obtain ⟨state, total, got⟩ := s
    cases complete
    exact .complete rfl
  | cons len lens ih =>
    obtain ⟨bytes, t, e, more, read, others, rfl⟩ := reads_cons_ok done
    obtain ⟨valid', opened'⟩ := readImpl_opens valid opened read
    exact (ih valid' opened' others).readImpl valid opened read

/-- When a reader is complete, the bytes it took are chunks that end in CR LF, with the data that it
returned, exactly if CR LF stands behind the data of each chunk of the stream. -/
theorem chunks_terminated_iff (valid : c.Valid) (done : reads lens {} c = .ok (pieces, r, d))
    (complete : r.state = .complete) :
    (∃ body : TakenBody, c.unread = body.encode ++ d.unread ∧ pieces.flatten = body.data ∧
        body.Terminated) ↔ Delimited c.unread := by
  have fresh : Open {} := nofun
  have takes := reads_takes valid fresh done complete
  generalize pieces.flatten = data at takes ⊢
  cases takes with
  | size body whole =>
    constructor
    · rintro ⟨body', whole', -, terminated⟩
      rw [whole']
      exact body'.terminated_iff.mp terminated
    · intro delimited
      rw [whole] at delimited
      exact ⟨body, whole, rfl, body.terminated_iff.mpr delimited⟩

/-- The chunk `abc` with the given bytes after its data, and the end of the body. -/
def takenAbc (ending : Bytes) (two : ending.length = 2) : TakenBody where
  chunks := [⟨ascii "3", ascii "abc", ending, by decide, by decide +kernel, by decide, two⟩]
  last := ascii "0"
  trailers := []
  single := by decide
  zero := by decide +kernel
  lines := nofun

theorem chunks_terminated_abc :
    Delimited (Source.holding (takenAbc crlf rfl).encode []).unread := by
  have done : reads [8, 8] {} (.holding (takenAbc crlf rfl).encode []) =
      .ok ([ascii "abc", []], { state := .complete },
        (Source.holding (takenAbc crlf rfl).encode []).consume 13) := by decide +kernel
  refine (chunks_terminated_iff valid_holding done rfl).mp ⟨takenAbc crlf rfl, ?_, ?_, ?_⟩
  · decide +kernel
  · decide
  · unfold TakenBody.Terminated
    decide

/-- Two other bytes after the data of a chunk are skipped like CR LF. -/
theorem stray_ending_accepted : ∃ d, reads [8, 8] {} (.holding (ascii "3\r\nabcXY0\r\n\r\n") []) =
        .ok ([ascii "abc", []], { state := .complete }, d) ∧
      ¬ ∃ body : TakenBody, ascii "3\r\nabcXY0\r\n\r\n" = body.encode ++ d.unread ∧
        [ascii "abc", []].flatten = body.data ∧ body.Terminated := by
  refine ⟨(Source.holding (ascii "3\r\nabcXY0\r\n\r\n") []).consume 13, by decide +kernel, ?_⟩
  rintro ⟨body, whole, -, terminated⟩
  have taken : ascii "3\r\nabcXY0\r\n\r\n" = (takenAbc (ascii "XY") rfl).encode ++ [] := by decide
  have delimited : Delimited (ascii "3\r\nabcXY0\r\n\r\n") := by
    rw [whole]
    exact body.terminated_iff.mp terminated
  rw [taken] at delimited
  have ends := (TakenBody.terminated_iff _).mpr delimited (ascii "XY") mem_cons_self
  exact absurd ends (by decide)

end ChunkedReader
end Nitrocoro.Http
