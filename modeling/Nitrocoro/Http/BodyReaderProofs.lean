import Nitrocoro.Http.BodyReader
import Nitrocoro.Http.Wire

/-! The body readers deliver a well-formed body and stop at its last byte, however the bytes
arrive and whatever the lengths of the reads. -/
namespace Nitrocoro.Http
open Text List ChunkedReader

namespace Source
variable {c d : Source}

theorem view_of_empty (valid : c.Valid) (empty : ¬ 0 < c.buffer.remainSize) : c.buffer.view = [] := by
  rw [← length_eq_zero_iff, show c.buffer.view = c.view from rfl, valid.length_view]
  omega

theorem take_ok (valid : c.Valid) (taken : c.take limit = some (bytes, d)) :
    d.Valid ∧ c.unread = bytes ++ d.unread ∧ bytes.length ≤ limit := by
  by_cases buffered : 0 < c.buffer.remainSize
  · simp only [take, if_pos buffered] at taken
    cases taken
    have long := valid.length_view
    have enough : min c.buffer.remainSize limit ≤ c.view.length := by omega
    refine ⟨valid.consume enough, ?_, ?_⟩
    · rw [consume_unread enough, ← take_append_of_le_length enough]
      exact (take_append_drop _ _).symm
    · rw [length_take]
      omega
  · have nothing := view_of_empty valid buffered
    by_cases ended : (c.stream.read limit).1 = []
    · simp only [take, if_neg buffered, if_pos ended] at taken
      cases taken
    · simp only [take, if_neg buffered, if_neg ended] at taken
      cases taken
      refine ⟨valid, ?_, Io.Stream.length_read_le⟩
      rw [unread, unread, nothing, nil_append, nil_append, Io.Stream.read_append]

theorem take_some (limit : Nat) (valid : c.Valid) (asked : 0 < limit) (left : c.unread ≠ []) :
    ∃ bytes d, c.take limit = some (bytes, d) ∧ bytes ≠ [] := by
  by_cases buffered : 0 < c.buffer.remainSize
  · refine ⟨_, _, if_pos buffered, ?_⟩
    rw [← length_pos_iff, length_take, valid.length_view]
    omega
  · have rest : c.unread = c.stream.rest := by
      rw [unread, view_of_empty valid buffered, nil_append]
    have some := length_pos_iff.mp (Io.Stream.length_read_pos asked (rest ▸ left))
    exact ⟨_, _, (if_neg buffered).trans (if_neg some), some⟩

theorem take_ne_nil (valid : c.Valid) (asked : 0 < limit) (taken : c.take limit = some (bytes, d)) :
    bytes ≠ [] := by
  simp only [take] at taken
  split at taken
  · cases taken
    rw [← length_pos_iff, length_take, valid.length_view]
    omega
  split at taken
  · cases taken
  · cases taken
    assumption

end Source

theorem SizeLine.stops (l : SizeLine) : Numeral.Stops 16 l.extension := by
  intro c first
  obtain rfl | rfl | rfl := l.opens c first <;> decide

theorem SizeLine.stoul (l : SizeLine) (fits : l.size < 2 ^ 64) :
    Numeral.stoul 16 l.line = .ok l.size :=
  Numeral.stoul_digits l.hex l.stops fits

namespace ChunkedReader
variable {c : Source} {tail : Bytes}

theorem skipCRLF_spec (valid : c.Valid) (whole : c.unread = crlf ++ tail) :
    ∃ d, skipCRLF c = .ok d ∧ d.Valid ∧ d.unread = tail := by
  apply Loop.run_spec skipCRLF_decreases (fun c => c.Valid ∧ c.unread = crlf ++ tail)
    (fun r => ∃ d, r = .ok d ∧ d.Valid ∧ d.unread = tail)
  · rintro c d ⟨valid, whole⟩ goes
    obtain ⟨-, fetched⟩ := skipCRLFRound_inl goes
    exact ⟨Source.fetch_valid valid fetched, (Source.fetch_unread valid fetched).trans whole⟩
  · rintro c r ⟨valid, whole⟩ leaves
    simp only [skipCRLFRound] at leaves
    split at leaves
    · split at leaves
      · rename_i nothing
        have empty := Source.fetch_none (by decide) nothing
        have long := congrArg List.length whole
        rw [Source.unread, empty, append_nil, show c.buffer.view = c.view from rfl,
          valid.length_view, length_append] at long
        simp only [crlf, length_cons] at long
        omega
      · cases leaves
    · cases leaves
      have within : 2 ≤ c.view.length := by
        rw [valid.length_view]
        omega
      refine ⟨_, rfl, valid.consume within, ?_⟩
      rw [Source.consume_unread within, whole]
      rfl
  · exact ⟨valid, whole⟩

theorem skipTrailer_run (lines : Nat) (trailers : List Trailer) (few : lines + trailers.length ≤ 128)
    (brief : ∀ trailer ∈ trailers, trailer.line.length ≤ 8190) (valid : c.Valid)
    (whole : c.unread = ChunkedBody.encodeTrailers trailers ++ tail) :
    ∃ d, Loop.run skipTrailer_decreases (lines, c) = .ok d ∧ d.Valid ∧ d.unread = tail := by
  induction trailers generalizing lines c with
  | nil =>
    have ended : c.unread = [] ++ (crlf ++ tail) := whole
    obtain ⟨d, found, -, valid', rest⟩ := trailerLine.awaitLine_found valid ended rfl (by decide)
    refine ⟨_, Loop.run_inr skipTrailer_decreases ?_, valid', rest⟩
    simp [skipTrailerRound, found]
  | cons trailer trailers ih =>
    have cut : c.unread =
        trailer.line ++ (crlf ++ (ChunkedBody.encodeTrailers trailers ++ tail)) := by
      simpa [ChunkedBody.encodeTrailers] using whole
    have short : ∀ n ≤ trailer.line.length + 1, trailerLine.tooLong n = false := by
      intro n le
      have := brief trailer mem_cons_self
      exact decide_eq_false (by omega)
    obtain ⟨d, found, -, valid', rest⟩ :=
      trailerLine.awaitLine_found valid cut trailer.single short
    have long : trailer.line.length ≠ 0 := by simpa using trailer.nonempty
    simp only [length_cons] at few
    have step : skipTrailerRound (lines, c) =
        .inl (lines + 1, d.consume (trailer.line.length + 2)) := by
      simp only [skipTrailerRound, found, if_neg long]
      rw [if_neg (by omega)]
    rw [Loop.run_inl skipTrailer_decreases step]
    exact ih (lines + 1) (by omega) (fun t mem => brief t (mem_cons_of_mem _ mem)) valid' rest

theorem parseChunkSize_eq (l : SizeLine) (valid : c.Valid)
    (whole : c.unread = l.line ++ (crlf ++ tail)) (fits : l.size < 2 ^ 64) :
    ∃ d : Source, d.Valid ∧ d.unread = tail ∧
      parseChunkSize c = if l.size = 0 then do
          let e ← skipTrailer d
          .ok ({ state := .complete }, e)
        else .ok ({ state := .readData, currentChunkSize := l.size }, d) := by
  have length : l.line.length ≤ 62 := by simpa [SizeLine.line] using l.short
  have short : ∀ n ≤ l.line.length + 1, sizeLine.tooLong n = false := by
    intro n le
    exact decide_eq_false (by omega)
  obtain ⟨d, found, text, valid', rest⟩ := sizeLine.awaitLine_found valid whole l.single short
  refine ⟨_, valid', rest, ?_⟩
  simp only [parseChunkSize, found, startChunk, text, l.stoul fits]
  rw [if_neg (by omega)]

theorem parseChunkSize_last (body : ChunkedBody) (moderate : body.Moderate)
    (none : body.chunks = []) (valid : c.Valid) (whole : c.unread = body.encode ++ tail) :
    ∃ d, parseChunkSize c = .ok ({ state := .complete }, d) ∧ d.Valid ∧ d.unread = tail := by
  have cut : c.unread = body.last.line ++
      (crlf ++ (ChunkedBody.encodeTrailers body.trailers ++ tail)) := by
    simpa [ChunkedBody.encode, none] using whole
  obtain ⟨d, valid', rest, parsed⟩ := parseChunkSize_eq body.last valid cut (by simp [body.zero])
  obtain ⟨e, skipped, valid'', rest'⟩ :=
    skipTrailer_run 0 body.trailers (by simpa using moderate.few) moderate.short valid' rest
  refine ⟨e, ?_, valid'', rest'⟩
  rw [parsed, if_pos body.zero, skipTrailer, skipped]
  rfl

theorem parseChunkSize_chunk (chunk : Chunk) (valid : c.Valid)
    (whole : c.unread = chunk.encode ++ tail) : ∃ d, parseChunkSize c =
        .ok ({ state := .readData, currentChunkSize := chunk.data.length }, d) ∧ d.Valid ∧
      d.unread = chunk.data ++ (crlf ++ tail) := by
  have cut : c.unread = chunk.sizeLine.line ++ (crlf ++ (chunk.data ++ (crlf ++ tail))) := by
    simpa [Chunk.encode] using whole
  obtain ⟨d, valid', rest, parsed⟩ :=
    parseChunkSize_eq chunk.sizeLine valid cut (by simpa [chunk.counted] using chunk.fits)
  have nonzero : chunk.data.length ≠ 0 := by simpa using chunk.nonempty
  refine ⟨d, ?_, valid', rest⟩
  rw [parsed, chunk.counted, if_neg nonzero]

end ChunkedReader

/-- The reader has `body` still to deliver, and `tail` is what follows the message. -/
inductive Carries (tail : Bytes) : BodyReaderImpl → Source → Bytes → Prop where
  | noop : c.Valid → c.unread = tail → Carries tail .noop c []
  | contentLength : c.Valid → c.unread = body ++ tail → total = bytesRead + body.length →
      Carries tail (.contentLength total bytesRead) c body
  | size (coding : ChunkedBody) : coding.Moderate → c.Valid → c.unread = coding.encode ++ tail →
      Carries tail (.chunked ⟨.readSize, total, got⟩) c coding.data
  | data (coding : ChunkedBody) : coding.Moderate → c.Valid → part ≠ [] → total = got + part.length →
      c.unread = part ++ (crlf ++ (coding.encode ++ tail)) →
      Carries tail (.chunked ⟨.readData, total, got⟩) c (part ++ coding.data)
  | complete : c.Valid → c.unread = tail → Carries tail (.chunked ⟨.complete, total, got⟩) c []

namespace Carries
variable {tail body : Bytes} {c : Source} {r : BodyReaderImpl}

theorem valid (carries : Carries tail r c body) : c.Valid := by
  cases carries <;> assumption

theorem isComplete (carries : Carries tail r c body) (done : r.isComplete) :
    body = [] ∧ c.Valid ∧ c.unread = tail := by
  cases carries with
  | noop valid whole | complete valid whole => exact ⟨rfl, valid, whole⟩
  | contentLength valid whole counted =>
    have short : _ ≤ _ := of_decide_eq_true done
    have empty : body = [] := length_eq_zero_iff.mp (by omega)
    exact ⟨empty, valid, by rw [whole, empty, nil_append]⟩
  | size | data => exact absurd done (by simp [BodyReaderImpl.isComplete])

theorem create_contentLength (valid : c.Valid) (whole : c.unread = body ++ tail) :
    Carries tail (.create .contentLength body.length) c body := by
  by_cases empty : body = []
  · subst empty
    exact .noop valid whole
  · have nonzero : ¬ body.length = 0 := by simpa using empty
    simp only [BodyReaderImpl.create, if_neg nonzero]
    exact .contentLength valid whole (Nat.zero_add _).symm

theorem create (framing : Framing) (moderate : framing.Moderate) (valid : c.Valid)
    (whole : c.unread = framing.encode ++ tail) :
    Carries tail (.create framing.mode framing.length) c framing.body := by
  cases framing with
  | absent => exact .noop valid whole
  | chunked coding => exact .size coding moderate valid whole
  | contentLength digits body => exact .create_contentLength valid whole

theorem take_part (valid : c.Valid) (whole : c.unread = part ++ tail) (left : part ≠ [])
    (asked : 0 < len) :
    ∃ bytes d rest, c.take (min len part.length) = some (bytes, d) ∧ bytes ≠ [] ∧ d.Valid ∧
      part = bytes ++ rest ∧ d.unread = rest ++ tail := by
  have long := length_pos_iff.mpr left
  have some : c.unread ≠ [] := by simp [whole, left]
  obtain ⟨bytes, d, taken, nonempty⟩ :=
    Source.take_some (min len part.length) valid (by omega) some
  obtain ⟨valid', split, short⟩ := Source.take_ok valid taken
  have front : bytes <+: part :=
    prefix_of_prefix_length_le ⟨_, split.symm⟩ ⟨_, whole.symm⟩ (by omega)
  obtain ⟨rest, rfl⟩ := front
  refine ⟨bytes, d, rest, taken, nonempty, valid', rfl, ?_⟩
  rw [split, append_assoc] at whole
  exact append_cancel_left whole

theorem readData (coding : ChunkedBody) (moderate : coding.Moderate) (valid : c.Valid)
    (left : part ≠ []) (counted : total = got + part.length)
    (whole : c.unread = part ++ (crlf ++ (coding.encode ++ tail))) (asked : 0 < len) :
    ∃ bytes s d rest, readData len ⟨.readData, total, got⟩ c = .ok (bytes, s, d) ∧
      bytes ≠ [] ∧ part ++ coding.data = bytes ++ rest ∧ Carries tail (.chunked s) d rest := by
  obtain ⟨bytes, d, rest, taken, some, valid', rfl, whole'⟩ := take_part valid whole left asked
  rw [length_append] at counted
  have limit : total - got = (bytes ++ rest).length := by
    rw [length_append]
    omega
  by_cases last : rest = []
  · subst last
    obtain ⟨e, skipped, valid'', whole''⟩ := skipCRLF_spec valid' whole'
    refine ⟨bytes, ⟨.readSize, total, got + bytes.length⟩, e, coding.data, ?_, some, by simp,
      .size coding moderate valid'' whole''⟩
    simp only [ChunkedReader.readData, limit, taken, ChunkedReader.advance, skipped]
    rw [if_pos (by simp [counted])]
    rfl
  · refine ⟨bytes, ⟨.readData, total, got + bytes.length⟩, d, rest ++ coding.data, ?_, some,
      by simp, .data coding moderate valid' last (by omega) whole'⟩
    have := length_pos_iff.mpr last
    simp only [ChunkedReader.readData, limit, taken, ChunkedReader.advance]
    rw [if_neg (by omega)]

theorem readImpl (carries : Carries tail r c body) (unfinished : r.isComplete = false)
    (asked : 0 < len) :
    ∃ bytes s d rest, r.readImpl len c = .ok (bytes, s, d) ∧ body = bytes ++ rest ∧
      Carries tail s d rest ∧ (bytes = [] → s.isComplete) := by
  cases carries with
  | noop | complete => cases unfinished
  | contentLength valid whole counted =>
    rename_i total bytesRead
    have notDone : ¬ total ≤ bytesRead := of_decide_eq_false unfinished
    have left : body ≠ [] := by
      rintro rfl
      simp only [length_nil] at counted
      omega
    obtain ⟨bytes, d, rest, taken, some, valid', rfl, whole'⟩ := take_part valid whole left asked
    have limit : total - bytesRead = (bytes ++ rest).length := by omega
    rw [length_append] at counted
    refine ⟨bytes, .contentLength total (bytesRead + bytes.length), d, rest, ?_, rfl,
      .contentLength valid' whole' (by omega), fun empty => absurd empty some⟩
    simp only [BodyReaderImpl.readImpl, if_neg notDone, limit, taken]
  | size coding moderate valid whole =>
    cases chunks : coding.chunks with
    | nil =>
      obtain ⟨d, parsed, valid', whole'⟩ :=
        parseChunkSize_last coding moderate chunks valid whole
      refine ⟨[], .chunked ⟨.complete, 0, 0⟩, d, [], ?_, by simp [ChunkedBody.data, chunks],
        .complete valid' whole', fun _ => rfl⟩
      simp [BodyReaderImpl.readImpl, readImpl, parsed, bind, Except.bind]
    | cons chunk chunks' =>
      let coding' : ChunkedBody := { coding with chunks := chunks' }
      have cut : c.unread = chunk.encode ++ (coding'.encode ++ tail) := by
        simpa [ChunkedBody.encode, chunks, coding'] using whole
      obtain ⟨d, parsed, valid', whole'⟩ := parseChunkSize_chunk chunk valid cut
      obtain ⟨bytes, s, e, rest, read, some, split, carries⟩ :=
        Carries.readData coding' { moderate with } valid' chunk.nonempty
          (by rw [Nat.zero_add]) whole' asked
      refine ⟨bytes, .chunked s, e, rest, ?_, ?_, carries, fun empty => absurd empty some⟩
      · simp [BodyReaderImpl.readImpl, readImpl, parsed, bind, Except.bind, read]
      · rw [← split]
        simp [ChunkedBody.data, chunks, coding']
  | data coding moderate valid left counted whole =>
    obtain ⟨bytes, s, d, rest, read, some, split, carries⟩ :=
      Carries.readData coding moderate valid left counted whole asked
    refine ⟨bytes, .chunked s, d, rest, ?_, split, carries, fun empty => absurd empty some⟩
    simp [BodyReaderImpl.readImpl, readImpl, bind, Except.bind, read]

theorem drain (carries : Carries tail r c body) :
    ∃ s d, Loop.run BodyReaderImpl.drain_decreases (r, c) = .ok (s, d) ∧ d.Valid ∧
      d.unread = tail := by
  apply Loop.run_spec BodyReaderImpl.drain_decreases
    (fun s => ∃ body, Carries tail s.1 s.2 body)
    (fun result => ∃ s d, result = .ok (s, d) ∧ d.Valid ∧ d.unread = tail)
  · rintro ⟨r, c⟩ ⟨s, d⟩ ⟨body, carries⟩ goes
    obtain ⟨unfinished, bytes, done, -⟩ := BodyReaderImpl.drainRound_inl goes
    obtain ⟨bytes', s', d', rest, done', -, carries', -⟩ :=
      carries.readImpl unfinished (by decide : 0 < 4096)
    rw [done] at done'
    cases done'
    exact ⟨rest, carries'⟩
  · rintro ⟨r, c⟩ result ⟨body, carries⟩ leaves
    simp only [BodyReaderImpl.drainRound] at leaves
    split at leaves
    · rename_i complete
      cases leaves
      exact ⟨r, c, rfl, (carries.isComplete complete).2⟩
    rename_i unfinished
    obtain ⟨bytes, s, d, rest, done, -, carries', ends⟩ :=
      carries.readImpl (by simpa using unfinished) (by decide : 0 < 4096)
    simp only [done] at leaves
    split at leaves
    · rename_i empty
      cases leaves
      exact ⟨s, d, rfl, (carries'.isComplete (ends empty)).2⟩
    · cases leaves
  · exact ⟨body, carries⟩

end Carries

/-- The connection ends before the counted bytes are there. -/
theorem BodyReaderImpl.drain_short (valid : c.Valid) (short : c.unread.length < total - got) :
    ∃ e, Loop.run drain_decreases (.contentLength total got, c) = .error e := by
  apply Loop.run_spec drain_decreases (fun s => ∃ got, s.1 = .contentLength total got ∧ s.2.Valid ∧
    s.2.unread.length < total - got) (fun result => ∃ e, result = .error e)
  · rintro ⟨_, c⟩ ⟨s, d⟩ ⟨got, rfl, valid, short⟩ goes
    obtain ⟨-, bytes, done, -⟩ := drainRound_inl goes
    simp only [readImpl] at done
    split at done
    · omega
    split at done
    · cases done
    · rename_i taken
      cases done
      obtain ⟨valid', split, -⟩ := Source.take_ok valid taken
      rw [split, length_append] at short
      exact ⟨_, rfl, valid', by dsimp only; omega⟩
  · rintro ⟨_, c⟩ result ⟨got, rfl, valid, short⟩ leaves
    have left : ¬ total ≤ got := by omega
    cases taken : c.take (min 4096 (total - got)) with
    | none =>
      simp [drainRound, isComplete, readImpl, left, taken] at leaves
      exact ⟨_, leaves.symm⟩
    | some p =>
      have some := Source.take_ne_nil valid (by omega) taken
      simp [drainRound, isComplete, readImpl, left, taken, some] at leaves
  · exact ⟨got, rfl, valid, short⟩

namespace BodyReader
variable {tail body : Bytes} {c : Source} {b : BodyReader}

theorem read_spec (carries : Carries tail b.impl c body) (fresh : b.draining = false)
    (asked : 0 < len) :
    ∃ bytes b' d rest, b.read len c = .ok (bytes, b', d) ∧ body = bytes ++ rest ∧
      b'.draining = false ∧ Carries tail b'.impl d rest ∧ (bytes = [] → b'.isComplete) := by
  by_cases complete : b.isComplete
  · exact ⟨[], b, c, body, by simp [read, complete], rfl, fresh, carries, fun _ => complete⟩
  have unfinished : b.impl.isComplete = false := (Bool.not_eq_true _).mp complete
  obtain ⟨bytes, s, d, rest, done, split, carries', ends⟩ := carries.readImpl unfinished asked
  refine ⟨bytes, { b with impl := s }, d, rest, ?_, split, fresh, carries', ends⟩
  simp [read, fresh, complete, done, bind, Except.bind]

theorem drain_spec (carries : Carries tail b.impl c body) :
    ∃ b' d, b.drain c = .ok (b', d) ∧ d.Valid ∧ d.unread = tail := by
  obtain ⟨s, d, done, valid, rest⟩ := carries.drain
  refine ⟨{ impl := s, draining := true }, d, ?_, valid, rest⟩
  rw [drain, done]
  rfl

end BodyReader
end Nitrocoro.Http
