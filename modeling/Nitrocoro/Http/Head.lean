import Nitrocoro.Http.Parser
import Nitrocoro.Http.Source

/-! `parseNext` of the server and of the client: lines are cut off the source and handed to a
parser until the head of the message is complete. -/
namespace Nitrocoro.Http
open Text

/-- A `parseNext` loop: how it waits for lines, how many it allows and the parser it feeds. -/
structure HeadReader (M : Type) where
  wait : LineReader
  tooMany : Nat → Bool
  empty : M
  parseLine : HttpParser M → Bytes → Except Exn (HttpParser M)

namespace HeadReader
variable {M : Type} (reader : HeadReader M) {c d : Source} {p q : HttpParser M}

def failure (code : HttpParseError) (message : String) : HttpParseResult M where
  message := reader.empty
  errorCode := code
  errorMessage := ascii message

def round : HttpParser M × Nat × Source →
    (HttpParser M × Nat × Source) ⊕ Except Exn (HttpParseResult M × Source)
  | (p, lines, c) =>
    match reader.wait.awaitLine c with
    | (.tooLong, d) =>
      .inr (.ok (reader.failure .malformedRequestLine "Header line too long", d))
    | (.closed, d) =>
      .inr (.ok (reader.failure .connectionClosed "Connection closed before headers complete", d))
    | (.found pos, d) =>
      if reader.tooMany (lines + 1) then
        .inr (.ok (reader.failure .malformedRequestLine "Too many headers", d))
      else match reader.parseLine p (d.view.take pos) with
        | .error e => .inr (.error e)
        | .ok q =>
          if q.state = .error ∨ q.state = .headerComplete then
            .inr (.ok (q.extractResult, d.consume (pos + 2)))
          else .inl (q, lines + 1, d.consume (pos + 2))

theorem round_inl (goes : reader.round (p, lines, c) = .inl t) :
    ∃ pos d q, reader.wait.awaitLine c = (.found pos, d) ∧
      reader.parseLine p (d.view.take pos) = .ok q ∧
      ¬(q.state = .error ∨ q.state = .headerComplete) ∧ t = (q, lines + 1, d.consume (pos + 2)) := by
  simp only [round] at goes
  split at goes
  · cases goes
  · cases goes
  rename_i pos d found
  split at goes
  · cases goes
  split at goes
  · cases goes
  rename_i q parsed
  split at goes
  · cases goes
  · rename_i open_
    cases goes
    exact ⟨pos, d, q, found, parsed, open_, rfl⟩

/-- A round leaves the loop with an exception of the parser, with a failure before the line is
parsed, or with the result of the parser. -/
theorem round_inr (leaves : reader.round (p, lines, c) = .inr r) : (∃ e, r = .error e) ∨
    (∃ code message, code ≠ .none ∧
      r = .ok (reader.failure code message, (reader.wait.awaitLine c).2)) ∨
    ∃ pos d q, reader.wait.awaitLine c = (.found pos, d) ∧
      reader.parseLine p (d.view.take pos) = .ok q ∧
      (q.state = .error ∨ q.state = .headerComplete) ∧
      r = .ok (q.extractResult, d.consume (pos + 2)) := by
  simp only [round] at leaves
  split at leaves
  · rename_i d long
    cases leaves
    exact .inr (.inl ⟨.malformedRequestLine, _, nofun, by rw [long]⟩)
  · rename_i d closed
    cases leaves
    exact .inr (.inl ⟨.connectionClosed, _, nofun, by rw [closed]⟩)
  rename_i pos d found
  split at leaves
  · cases leaves
    exact .inr (.inl ⟨.malformedRequestLine, _, nofun, by rw [found]⟩)
  split at leaves
  · rename_i e _
    cases leaves
    exact .inl ⟨e, rfl⟩
  rename_i q parsed
  split at leaves
  · rename_i closed
    cases leaves
    exact .inr (.inr ⟨pos, d, q, found, parsed, closed, rfl⟩)
  · cases leaves

/-- The only way to a result without an error is a line that ends the head. -/
theorem round_inr_ok (leaves : reader.round (p, lines, c) = .inr (.ok (result, e)))
    (fine : result.errorCode = .none) : ∃ pos d q, reader.wait.awaitLine c = (.found pos, d) ∧
      reader.parseLine p (d.view.take pos) = .ok q ∧
      (q.state = .error ∨ q.state = .headerComplete) ∧
      result = q.extractResult ∧ e = d.consume (pos + 2) := by
  rcases reader.round_inr leaves with ⟨_, failed⟩ | ⟨code, message, bad, failed⟩ |
    ⟨pos, d, q, found, parsed, closed, same⟩
  · cases failed
  · cases failed
    exact absurd fine bad
  · cases same
    exact ⟨pos, d, q, found, parsed, closed, rfl, rfl⟩

theorem round_decreases : Loop.Decreases reader.round (fun s => s.2.2.size) := by
  rintro ⟨p, lines, c⟩ t goes
  obtain ⟨pos, d, q, found, -, -, rfl⟩ := reader.round_inl goes
  exact reader.wait.awaitLine_consume found

def parseNext (c : Source) : Except Exn (HttpParseResult M × Source) :=
  Loop.run reader.round_decreases ({ data := reader.empty }, 0, c)

theorem parseNext_size (parsed : reader.parseNext c = .ok (result, d)) :
    d.size ≤ c.size ∧ (result.errorCode = .none → d.size < c.size) := by
  refine Loop.run_spec reader.round_decreases (fun s => s.2.2.size ≤ c.size)
    (fun r => ∀ result d, r = .ok (result, d) →
      d.size ≤ c.size ∧ (result.errorCode = .none → d.size < c.size))
    ?_ ?_ (Nat.le_refl _) result d parsed
  · rintro ⟨p, lines, e⟩ t le goes
    obtain ⟨pos, d, q, found, -, -, rfl⟩ := reader.round_inl goes
    have := reader.wait.awaitLine_consume found
    dsimp only at le ⊢
    omega
  rintro ⟨p, lines, e⟩ r le leaves result d rfl
  dsimp only at le
  rcases reader.round_inr leaves with ⟨_, failed⟩ | ⟨code, message, bad, failed⟩ |
    ⟨pos, d, q, found, -, -, same⟩
  · cases failed
  · cases failed
    have waited := (reader.wait.awaitLine_size (c := e)).1
    exact ⟨Nat.le_trans waited le, fun fine => absurd fine bad⟩
  · cases same
    have := reader.wait.awaitLine_consume found
    exact ⟨by omega, fun _ => by omega⟩

/-- `lines` takes the parser from `p` to `q`, and only the last of them ends the head. -/
inductive Parses : HttpParser M → List Bytes → HttpParser M → Prop where
  | last : reader.parseLine s line = .ok t → t.state = .headerComplete → Parses s [line] t
  | more : reader.parseLine s line = .ok t → t.state = .expectHeader → Parses t lines u →
      Parses s (line :: lines) u

def encodeLines (lines : List Bytes) : Bytes := lines.flatMap (· ++ crlf)

/-- A read ends too late in one of the lines, the first of which begins at `start`. -/
def Overrun (c : Source) : Nat → List Bytes → Prop
  | _, [] => False
  | start, line :: lines =>
    reader.wait.Overruns c start line ∨ Overrun c (line.length + 2 + start) lines

theorem overrun_shift (shift : ∀ start line,
      reader.wait.Overruns d start line ↔ reader.wait.Overruns c (m + start) line)
    (start : Nat) (lines : List Bytes) :
    reader.Overrun d start lines ↔ reader.Overrun c (m + start) lines := by
  induction lines generalizing start with
  | nil => exact Iff.rfl
  | cons line lines ih => rw [Overrun, Overrun, shift, ih, Nat.add_left_comm]

/-- A head that the parser accepts line by line is read to its end, and no further, unless a read
ends too late in one of its lines. -/
theorem run_overrun (count : Nat) (parses : reader.Parses p lines q) (valid : c.Valid)
    (whole : c.unread = encodeLines lines ++ tail) (single : ∀ line ∈ lines, OneLine line)
    (few : ∀ n ≤ count + lines.length, reader.tooMany n = false) :
    reader.Overrun c 0 lines ∧ (∃ d, Loop.run reader.round_decreases (p, count, c)
        = .ok (reader.failure .malformedRequestLine "Header line too long", d)) ∨
      ¬ reader.Overrun c 0 lines ∧ ∃ d, Loop.run reader.round_decreases (p, count, c)
        = .ok (q.extractResult, d) ∧ d.Valid ∧ d.unread = tail := by
  induction parses generalizing c count with
  | @last p line q parsed ended =>
    have cut : c.unread = line ++ (crlf ++ tail) := by simpa [encodeLines] using whole
    have alone := single line List.mem_cons_self
    have enough := few (count + 1) (by simp)
    rw [Overrun, Overrun, or_false]
    by_cases long : reader.wait.Overruns c 0 line
    · have gaveUp := reader.wait.awaitLine_overruns valid cut alone long
      refine .inl ⟨long, (reader.wait.awaitLine c).2, Loop.run_inr reader.round_decreases ?_⟩
      rw [round, show reader.wait.awaitLine c = (.tooLong, _) from Prod.ext gaveUp rfl]
    · obtain ⟨d, found, text, valid', rest, _⟩ := reader.wait.awaitLine_fits valid cut alone long
      refine .inr ⟨long, _, Loop.run_inr reader.round_decreases ?_, valid', rest⟩
      simp [round, found, text, parsed, ended, enough]
  | @more p line q lines r parsed goes _ ih =>
    have cut : c.unread = line ++ (crlf ++ (encodeLines lines ++ tail)) := by
      simpa [encodeLines] using whole
    have alone := single line List.mem_cons_self
    have enough := few (count + 1) (by simp)
    by_cases long : reader.wait.Overruns c 0 line
    · have gaveUp := reader.wait.awaitLine_overruns valid cut alone long
      refine .inl ⟨.inl long, (reader.wait.awaitLine c).2, Loop.run_inr reader.round_decreases ?_⟩
      rw [round, show reader.wait.awaitLine c = (.tooLong, _) from Prod.ext gaveUp rfl]
    obtain ⟨d, found, text, valid', rest, shift⟩ :=
      reader.wait.awaitLine_fits valid cut alone long
    have step : reader.round (p, count, c)
        = .inl (q, count + 1, d.consume (line.length + 2)) := by
      simp [round, found, text, parsed, goes, enough]
    have later : ∀ n ≤ count + 1 + lines.length, reader.tooMany n = false := by
      intro n le
      apply few
      simp only [List.length_cons]
      omega
    rw [Loop.run_inl reader.round_decreases step, Overrun, or_iff_right long,
      ← reader.overrun_shift shift]
    exact ih (count + 1) valid' rest (fun l mem => single l (List.mem_cons_of_mem _ mem)) later

theorem not_overrun (c : Source) (start : Nat)
    (short : ∀ line ∈ lines, ∀ n ≤ line.length + 1, reader.wait.tooLong n = false) :
    ¬ reader.Overrun c start lines := by
  induction lines generalizing start with
  | nil => exact fun overrun => overrun
  | cons line lines ih =>
    rintro (⟨_, n, _, le, long⟩ | later)
    · rw [short line List.mem_cons_self n le] at long
      cases long
    · exact ih _ (fun line mem => short line (List.mem_cons_of_mem _ mem)) later

theorem run_parses (count : Nat) (parses : reader.Parses p lines q) (valid : c.Valid)
    (whole : c.unread = encodeLines lines ++ tail) (single : ∀ line ∈ lines, OneLine line)
    (short : ∀ line ∈ lines, ∀ n ≤ line.length + 1, reader.wait.tooLong n = false)
    (few : ∀ n ≤ count + lines.length, reader.tooMany n = false) :
    ∃ d, Loop.run reader.round_decreases (p, count, c) = .ok (q.extractResult, d) ∧ d.Valid ∧
      d.unread = tail := by
  rcases reader.run_overrun count parses valid whole single few with ⟨overrun, _⟩ | ⟨_, read⟩
  · exact absurd overrun (reader.not_overrun c 0 short)
  · exact read

theorem parseNext_closed (valid : c.Valid) (nothing : c.unread = [])
    (patient : reader.wait.tooLong 0 = false) : ∃ d, reader.parseNext c =
      .ok (reader.failure .connectionClosed "Connection closed before headers complete", d) := by
  obtain ⟨d, closed, -⟩ := reader.wait.awaitLine_none valid (by rw [nothing]; rfl) (by
    intro n le
    rw [nothing] at le
    rw [Nat.le_zero.mp le, patient])
  refine ⟨d, Loop.run_inr reader.round_decreases ?_⟩
  simp only [round]
  rw [closed]

/-- A line of the text before its first empty line, which may end with the text. -/
def HeadLine (text line : Bytes) : Prop :=
  ∃ before after, text = encodeLines before ++ (line ++ after) ∧
    (∀ earlier ∈ before, earlier ≠ [] ∧ OneLine earlier) ∧ OneLine line ∧
    (after = [] ∨ crlf <+: after)

theorem HeadLine.later (first_ne : first ≠ []) (single : OneLine first) (more : HeadLine text line) :
    HeadLine (first ++ (crlf ++ text)) line := by
  obtain ⟨before, after, rfl, whole, last⟩ := more
  refine ⟨first :: before, after, by simp [encodeLines], ?_, last⟩
  intro earlier mem
  rcases List.mem_cons.mp mem with rfl | mem
  · exact ⟨first_ne, single⟩
  · exact whole earlier mem

theorem HeadLine.length_le (mem : HeadLine text line) : line.length ≤ text.length := by
  obtain ⟨-, -, rfl, -⟩ := mem
  simp only [List.length_append]
  omega

/-- What can be told of a `parseNext` afterwards. -/
def observed (r : Except Exn (HttpParseResult M × Source)) : Except Exn (HttpParseResult M × Bytes) :=
  r.map fun (result, c) => (result, c.unread)

/-- States of the loop that differ only in how the unread bytes come in. -/
structure Alike (s t : HttpParser M × Nat × Source) : Prop where
  parser : t.1 = s.1
  count : t.2.1 = s.2.1
  valid : s.2.2.Valid
  valid' : t.2.2.Valid
  unread : t.2.2.unread = s.2.2.unread
  short : ∀ line, HeadLine s.2.2.unread line → ∀ n ≤ line.length + 1, reader.wait.tooLong n = false

section Alike
variable {reader} {s t : HttpParser M × Nat × Source}

theorem Alike.round_closed (alike : reader.Alike s t) (endless : OneLine s.2.2.unread) :
    Sum.LiftRel reader.Alike (fun r r' => observed r = observed r')
      (reader.round s) (reader.round t) := by
  obtain ⟨_, _, c⟩ := s
  obtain ⟨rfl, rfl, valid, valid', same, short⟩ := alike
  have patient : ∀ n ≤ c.unread.length, reader.wait.tooLong n = false := by
    intro n le
    apply short c.unread ⟨[], [], by simp [encodeLines], by simp, endless, .inl rfl⟩
    exact Nat.le_succ_of_le le
  obtain ⟨c', waits, left⟩ := reader.wait.awaitLine_none valid endless patient
  rw [← same] at endless patient
  obtain ⟨d', waits', left'⟩ := reader.wait.awaitLine_none valid' endless patient
  simp only [round, waits, waits']
  simp [observed, Except.map, left, left', same]

theorem Alike.round_line (alike : reader.Alike s t)
    (ends : ∀ p q, reader.parseLine p [] = .ok q → q.state = .error ∨ q.state = .headerComplete)
    (cutAt : find crlf s.2.2.unread = some pos) :
    Sum.LiftRel reader.Alike (fun r r' => observed r = observed r')
      (reader.round s) (reader.round t) := by
  obtain ⟨_, _, c⟩ := s
  obtain ⟨p, lines, d⟩ := t
  obtain ⟨rfl, rfl, valid, valid', same, short⟩ := alike
  obtain ⟨cut, single⟩ := find_some_cut cutAt (by decide)
  have patient : ∀ n ≤ pos + 1, reader.wait.tooLong n = false := by
    intro n le
    apply short (c.unread.take pos) ⟨[], _, cut, by simp, single, .inr ⟨_, rfl⟩⟩
    rwa [List.length_take_of_le (Nat.le_of_add_right_le (find_some_le cutAt))]
  obtain ⟨c', waits, left, text, ready, rest⟩ := reader.wait.awaitLine_some valid cutAt patient
  rw [← same] at cutAt
  obtain ⟨d', waits', left', text', ready', rest'⟩ :=
    reader.wait.awaitLine_some valid' cutAt patient
  simp only [round, waits, waits', text, text', same]
  split
  · simp [observed, Except.map, left, left', same]
  cases parsed : reader.parseLine p (c.unread.take pos) with
  | error e => exact .inr rfl
  | ok q =>
    dsimp only
    split
    · simp [observed, Except.map, rest, rest', same]
    rename_i open_
    refine .inl ⟨rfl, rfl, ready, ready', by rw [rest, rest', same], ?_⟩
    intro line more
    rw [rest] at more
    apply short
    rw [cut]
    refine more.later ?_ single
    intro empty
    rw [empty] at parsed
    exact open_ (ends p q parsed)

end Alike

/-- Only the unread bytes matter to `parseNext`, if an empty line ends every head and no line
before it is too long. -/
theorem parseNext_unread
    (ends : ∀ p q, reader.parseLine p [] = .ok q → q.state = .error ∨ q.state = .headerComplete)
    (valid : c.Valid) (valid' : d.Valid) (same : d.unread = c.unread)
    (short : ∀ line, HeadLine c.unread line →
      ∀ n ≤ line.length + 1, reader.wait.tooLong n = false) :
    observed (reader.parseNext c) = observed (reader.parseNext d) := by
  apply Loop.run_related reader.round_decreases reader.round_decreases reader.Alike
    (fun r r' => observed r = observed r')
  · intro s t alike
    cases cutAt : find crlf s.2.2.unread with
    | none => exact alike.round_closed cutAt
    | some pos => exact alike.round_line ends cutAt
  · exact ⟨rfl, rfl, valid, valid', same, short⟩

end HeadReader

/-- `parseNext` of the server: lines of up to `kMaxHeaderLineSize` and `kMaxHeaderCount` of them. -/
def requestHead (reg : MethodRegistry) : HeadReader HttpRequest where
  wait := { len := 4096, tooLong := fun n => 8192 < n, asks := by decide }
  tooMany n := 128 < n
  empty := {}
  parseLine := RequestParser.parseLine reg

/-- How the bytes of a request's head come in does not matter, nor what of them is in the buffer
already, if its lines are shorter than `kMaxHeaderLineSize`. -/
theorem parseNext_segmentation (reg : MethodRegistry) (c d : Source) (valid : c.Valid)
    (valid' : d.Valid) (same : d.unread = c.unread)
    (short : ∀ line, HeadReader.HeadLine c.unread line → line.length < 8192) :
    HeadReader.observed ((requestHead reg).parseNext c)
      = HeadReader.observed ((requestHead reg).parseNext d) := by
  apply (requestHead reg).parseNext_unread _ valid valid' same
  · intro line mem n le
    have := short line mem
    simp only [requestHead, decide_eq_false_iff_not]
    omega
  · exact fun p q parsed => RequestParser.parseLine_nil parsed

/-- In reads of one byte, two bytes and the rest, with a part of a next request behind it. -/
theorem parseNext_segmentation_sample :
    let reg := (MethodRegistry.add (ascii "GET") {}).2
    let text := ascii "GET / HTTP/1.1\r\nHost: a\r\n\r\nGET"
    HeadReader.observed ((requestHead reg).parseNext { stream := { rest := text, chops := [1, 2] } })
      = HeadReader.observed ((requestHead reg).parseNext { stream := { rest := text } }) := by
  intro reg text
  have fresh : ∀ stream, Source.Valid { stream } :=
    fun _ => ⟨Nat.zero_le _, Nat.zero_le _⟩
  refine parseNext_segmentation reg _ _ (fresh _) (fresh _) rfl ?_
  intro line mem
  have small : text.length < 8192 := by decide
  exact Nat.lt_of_le_of_lt mem.length_le small

/-- `parseNext` of the client, which sets no limits. -/
def responseHead : HeadReader HttpResponse where
  wait := { len := 4096, tooLong := fun _ => false, asks := by decide }
  tooMany _ := false
  empty := {}
  parseLine := ResponseParser.parseLine

end Nitrocoro.Http
