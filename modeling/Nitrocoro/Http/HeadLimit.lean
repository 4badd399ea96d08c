import Nitrocoro.Http.FramingProofs
import Nitrocoro.Http.ParserProofs

/-! The limit of `parseNext` on the length of a line. It is looked at only while the end of the line
has not come in, so that it depends on where the reads end whether a long line is refused. -/
namespace Nitrocoro.Http
open Text RequestParser HeadReader
open List hiding count tail

namespace HeadReader
variable {reg : MethodRegistry} {c d : Source} {p q : HttpParser HttpRequest}

theorem encodeLines_cons (line : Bytes) (lines : List Bytes) (tail : Bytes) :
    encodeLines (line :: lines) ++ tail = line ++ (crlf ++ (encodeLines lines ++ tail)) := by
  simp [encodeLines]

theorem encodeLines_inj {lines others : List Bytes} (single : ∀ line ∈ lines, OneLine line)
    (single' : ∀ line ∈ others, OneLine line)
    (same : encodeLines lines ++ tail = encodeLines others ++ tail) : lines = others := by
  induction lines generalizing others with
  | nil =>
    cases others with
    | nil => rfl
    | cons other others =>
      have sizes := congrArg length same
      rw [encodeLines_cons] at sizes
      simp only [encodeLines, flatMap_nil, length_append, crlf, length_cons] at sizes
      omega
  | cons line lines ih =>
    cases others with
    | nil =>
      have sizes := congrArg length same
      rw [encodeLines_cons] at sizes
      simp only [encodeLines, flatMap_nil, length_append, crlf, length_cons] at sizes
      omega
    | cons other others =>
      rw [encodeLines_cons, encodeLines_cons] at same
      obtain ⟨rfl, rest⟩ :=
        (single line mem_cons_self).cut_inj (single' other mem_cons_self) same
      rw [ih (fun line mem => single line (mem_cons_of_mem _ mem))
        (fun line mem => single' line (mem_cons_of_mem _ mem)) rest]

theorem round_many (found : (requestHead reg).wait.awaitLine c = (.found pos, d))
    (many : 128 < count + 1) : (requestHead reg).round (p, count, c) = .inr (.ok
      ((requestHead reg).failure .malformedRequestLine "Too many headers", d)) := by
  have refused : (requestHead reg).tooMany (count + 1) = true := decide_eq_true many
  simp only [round, found, refused, if_true]

theorem run_accepts (waiting : Waiting p) (valid : c.Valid)
    (accepted : Loop.run (requestHead reg).round_decreases (p, count, c) = .ok (result, d))
    (ok : result.errorCode = .none) :
    ∃ lines q, (requestHead reg).Parses p lines q ∧ c.unread = encodeLines lines ++ d.unread ∧
      (∀ line ∈ lines, OneLine line) ∧ count + lines.length ≤ 128 ∧ result = q.extractResult := by
  induction size : c.size using Nat.strong_induction_on generalizing p count c with
  | _ size ih =>
    cases round : (requestHead reg).round (p, count, c) with
    | inr r =>
      rw [Loop.run_inr _ round] at accepted
      subst accepted
      obtain ⟨pos, e, q, found, parsed, closed, rfl, rfl⟩ := round_inr_ok _ round ok
      obtain ⟨_, single, -, rfl, _, cut⟩ := LineReader.awaitLine_takes _ valid found
      have few : count + 1 ≤ 128 := by
        by_contra many
        rw [round_many found (Nat.lt_of_not_le many)] at round
        have same : (requestHead reg).failure .malformedRequestLine "Too many headers"
            = q.extractResult := congrArg Prod.fst (Except.ok.inj (Sum.inr.inj round))
        rw [← same] at ok
        cases ok
      rcases waiting.parseLine parsed with ⟨-, goes, -⟩ | ⟨complete, -⟩ | failed
      · rw [goes] at closed
        simp at closed
      · refine ⟨[e.view.take pos], q, .last parsed complete, ?_, ?_, few, rfl⟩
        · rw [encodeLines_cons, cut]
          rfl
        · simpa using single
      · exact absurd ok failed.code
    | inl t =>
      rw [Loop.run_inl _ round] at accepted
      obtain ⟨pos, e, q, found, parsed, goes, rfl⟩ := round_inl _ round
      obtain ⟨_, single, -, rfl, valid', cut⟩ := LineReader.awaitLine_takes _ valid found
      rcases waiting.parseLine parsed with ⟨still, started, -⟩ | ⟨complete, -⟩ | failed
      · have smaller := (requestHead reg).wait.awaitLine_consume found
        obtain ⟨lines, last, parses, rest, singles, few, same⟩ :=
          ih _ (size ▸ smaller) still valid' accepted rfl
        refine ⟨e.view.take pos :: lines, last, .more parsed started parses, ?_, ?_, ?_, same⟩
        · rw [encodeLines_cons, cut, rest]
        · intro line mem
          rcases mem_cons.mp mem with rfl | mem
          · exact single
          · exact singles line mem
        · simp only [length_cons]
          omega
      · exact absurd (.inr complete) goes
      · exact absurd (.inl failed.state) goes

theorem clean_of_parses (waiting : Waiting p) (parses : (requestHead reg).Parses p lines q) :
    q.errorCode = .none := by
  induction parses with
  | last parsed ended =>
    rcases waiting.parseLine parsed with ⟨still, -⟩ | ⟨-, clean, -⟩ | failed
    · exact still.clean
    · exact clean
    · rw [failed.state] at ended
      cases ended
  | more parsed goes _ ih =>
    rcases waiting.parseLine parsed with ⟨still, -⟩ | ⟨complete, -⟩ | failed
    · exact ih still
    · rw [complete] at goes
      cases goes
    · rw [failed.state] at goes
      cases goes

theorem run_limited (valid : c.Valid)
    (parses : (requestHead reg).Parses { data := (requestHead reg).empty } lines q)
    (whole : c.unread = encodeLines lines ++ tail) (single : ∀ line ∈ lines, OneLine line)
    (few : lines.length ≤ 128) :
    (requestHead reg).Overrun c 0 lines ∧ (∃ d, (requestHead reg).parseNext c
        = .ok ((requestHead reg).failure .malformedRequestLine "Header line too long", d)) ∨
      ¬ (requestHead reg).Overrun c 0 lines ∧ ∃ d, (requestHead reg).parseNext c
        = .ok (q.extractResult, d) ∧ d.Valid ∧ d.unread = tail := by
  apply (requestHead reg).run_overrun 0 parses valid whole single
  intro n le
  exact decide_eq_false (by omega)

end HeadReader

open HeadReader in
/-- No request with a line of more than `kMaxHeaderLineSize` bytes is accepted if and only if, in
every head that the parser would accept and that has such a line, a read ends between the first
`kMaxHeaderLineSize` bytes and the end of a line; the request is then refused for that. -/
theorem long_line_refused_iff (reg : MethodRegistry) (c : Source) (valid : c.Valid) :
    ((∀ result d lines, (requestHead reg).parseNext c = .ok (result, d) →
        result.errorCode = .none → c.unread = encodeLines lines ++ d.unread →
        (∀ line ∈ lines, OneLine line) → ∀ line ∈ lines, line.length ≤ 8192) ↔
      ∀ lines tail q, (requestHead reg).Parses { data := (requestHead reg).empty } lines q →
        c.unread = encodeLines lines ++ tail → (∀ line ∈ lines, OneLine line) →
        lines.length ≤ 128 → (∃ line ∈ lines, 8192 < line.length) →
        (requestHead reg).Overrun c 0 lines) ∧
      ∀ lines tail q, (requestHead reg).Parses { data := (requestHead reg).empty } lines q →
        c.unread = encodeLines lines ++ tail → (∀ line ∈ lines, OneLine line) →
        lines.length ≤ 128 → (requestHead reg).Overrun c 0 lines →
        ∃ d, (requestHead reg).parseNext c
          = .ok ((requestHead reg).failure .malformedRequestLine "Header line too long", d) := by
  have start : Waiting { data := (requestHead reg).empty } := ⟨.inl rfl, rfl⟩
  refine ⟨⟨?_, ?_⟩, ?_⟩
  · rintro refused lines tail q parses whole single few ⟨line, mem, long⟩
    rcases run_limited valid parses whole single few with ⟨overrun, _⟩ | ⟨_, d, read, _, rfl⟩
    · exact overrun
    · have code := clean_of_parses start parses
      have short := refused _ d lines read code whole single line mem
      exact absurd long (Nat.not_lt.mpr short)
  · intro stopped result d lines accepted ok whole single line mem
    by_contra long
    obtain ⟨others, q, parses, whole', single', few, rfl⟩ := run_accepts start valid accepted ok
    obtain rfl := encodeLines_inj single single' (whole.symm.trans whole')
    rw [Nat.zero_add] at few
    have overrun := stopped lines _ q parses whole single few ⟨line, mem, Nat.lt_of_not_le long⟩
    rcases run_limited valid parses whole single few with ⟨_, e, refused⟩ | ⟨fits, _⟩
    · have same : (requestHead reg).failure .malformedRequestLine "Header line too long"
          = q.extractResult := congrArg Prod.fst (Except.ok.inj (refused.symm.trans accepted))
      rw [← same] at ok
      cases ok
    · exact fits overrun
  · intro lines tail q parses whole single few overrun
    rcases run_limited valid parses whole single few with ⟨_, refused⟩ | ⟨fits, _⟩
    · exact refused
    · exact absurd overrun fits

def pathLine (n : Nat) : Bytes :=
  requestLine (ascii "GET") (requestTarget (47 :: List.replicate n 97) none)

def getOnly : MethodRegistry := (MethodRegistry.add (ascii "GET") {}).2

theorem length_pathLine (n : Nat) : (pathLine n).length = n + 14 := by
  have version : (ascii "HTTP/1.1").length = 8 := rfl
  have method : (ascii "GET").length = 3 := rfl
  simp only [pathLine, requestLine, requestTarget, Option.elim_none, append_nil,
    length_append, length_cons, length_replicate, method]
  omega

theorem single_pathLine (n : Nat) : OneLine (pathLine n) := by
  apply oneLine_of_not_mem
  simp only [pathLine, requestLine, requestTarget, Option.elim_none, append_nil,
    mem_append, mem_cons, mem_replicate, not_or, not_and]
  exact ⟨by decide, by decide, ⟨by decide, fun _ => by decide⟩, by decide, by decide⟩

theorem parses_pathLine (n : Nat) :
    ∃ q, (requestHead getOnly).Parses { data := (requestHead getOnly).empty } [pathLine n, []] q := by
  have plain : 32 ∉ 47 :: replicate n (97 : UInt8) ∧ 63 ∉ 47 :: replicate n (97 : UInt8) := by
    simp
  have fresh : ({ data := (requestHead getOnly).empty } : HttpParser HttpRequest).data.queries = [] :=
    rfl
  have token : isValidToken (ascii "GET") := by decide
  have registered : getOnly.fromString (ascii "GET") ≠ .invalid := by decide
  have query : ∀ q ∈ (none : Option Bytes), 32 ∉ q := by simp
  have first := parseRequestLine_spec token registered plain query fresh
  exact ⟨_, .more (congrArg Except.ok first) rfl (.last rfl rfl)⟩

theorem single_sample (n : Nat) : ∀ line ∈ [pathLine n, []], OneLine line := by
  intro line mem
  rcases mem_pair.mp mem with rfl | rfl
  · exact single_pathLine n
  · decide

/-- Reads of 4096 bytes end at 8192 and behind the whole request. -/
theorem not_overrun_sample : ¬ (requestHead getOnly).Overrun
      { stream := { rest := encodeLines [pathLine 9000, []] } } 0 [pathLine 9000, []] := by
  have size : (encodeLines [pathLine 9000, []]).length = 9018 := by
    simp [encodeLines, length_pathLine, crlf]
  have ends : ∀ k, Source.arrived (requestHead getOnly).wait.len
      { stream := { rest := encodeLines [pathLine 9000, []] } } k
        = min (4096 * k) 9018 := by
    intro k
    rw [Source.arrived, Io.Stream.received_full, length_take, size]
    exact Nat.zero_add _
  rintro (⟨k, n, arrived, le, long⟩ | ⟨k, n, -, le, long⟩ | none)
  · rw [ends] at arrived
    rw [length_pathLine] at le
    have long : 8192 < n := of_decide_eq_true long
    rcases Nat.lt_or_ge k 3 with early | late
    · omega
    · omega
  · have long : 8192 < n := of_decide_eq_true long
    simp only [length_nil] at le
    omega
  · exact none

/-- The line is accepted when it comes in with reads that fill their buffers. -/
theorem long_line_accepted : ∃ result d, (requestHead getOnly).parseNext
        { stream := { rest := encodeLines [pathLine 9000, []] } } = .ok (result, d) ∧
      result.errorCode = .none ∧ (pathLine 9000).length = 9014 := by
  obtain ⟨q, parses⟩ := parses_pathLine 9000
  have valid : Source.Valid { stream := { rest := encodeLines [pathLine 9000, []] } } :=
    ⟨Nat.zero_le _, Nat.zero_le _⟩
  have start : Waiting { data := (requestHead getOnly).empty } := ⟨.inl rfl, rfl⟩
  rcases run_limited valid parses (append_nil _).symm (single_sample 9000)
    (by decide) with ⟨overrun, _⟩ | ⟨_, d, read, _⟩
  · exact absurd overrun not_overrun_sample
  · exact ⟨_, d, read, clean_of_parses start parses, length_pathLine 9000⟩

def buffered (line : Bytes) : Source where
  buffer := ⟨line.take 8200, 0, 8200⟩
  stream := { rest := line.drop 8200 ++ (crlf ++ crlf) }

theorem buffered_spec (long : 8200 ≤ line.length) :
    (buffered line).Valid ∧ (buffered line).view.length = 8200 ∧
      (buffered line).unread = line ++ (crlf ++ crlf) := by
  have held : (line.take 8200).length = 8200 := length_take_of_le long
  have view : (buffered line).view = line.take 8200 := take_of_length_le (Nat.le_of_eq held)
  refine ⟨⟨Nat.zero_le _, Nat.le_of_eq held.symm⟩, by rw [view, held], ?_⟩
  rw [Source.unread, show (buffered line).buffer.view = _ from view, buffered, ← append_assoc,
    take_append_drop]

theorem long_line_refused_buffered : (buffered (pathLine 9000)).Valid ∧
      ∀ result d lines,
        (requestHead getOnly).parseNext (buffered (pathLine 9000)) = .ok (result, d) →
        result.errorCode = .none →
        (buffered (pathLine 9000)).unread = encodeLines lines ++ d.unread →
        (∀ line ∈ lines, OneLine line) → ∀ line ∈ lines, line.length ≤ 8192 := by
  have size := length_pathLine 9000
  obtain ⟨valid, held, whole⟩ := buffered_spec (Nat.le_trans (by decide) (Nat.le_of_eq size.symm))
  refine ⟨valid, (long_line_refused_iff getOnly (buffered (pathLine 9000)) valid).1.mpr ?_⟩
  intro lines tail q parses cut single few long
  cases lines with
  | nil => cases parses
  | cons line lines =>
    -- the first line ends where the text has its first line end
    have ends := (single_pathLine 9000).find_crlf crlf
    rw [← whole, cut, encodeLines_cons, (single line mem_cons_self).find_crlf] at ends
    have same : line.length = 9014 := (Option.some.inj ends).trans size
    refine .inl ⟨0, 8200, ?_, by omega, rfl⟩
    rw [Source.arrived, held]
    rfl

end Nitrocoro.Http
