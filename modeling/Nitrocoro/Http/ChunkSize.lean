import Nitrocoro.Http.ChunkedReads

/-! The size lines of chunks, as their grammar has them and as `parseChunkSize` takes them. -/
namespace Nitrocoro.Http
open Text Numeral

def isBlank (c : UInt8) : Bool := c = 32 || c = 9

/-- The line gives the size `digits`: one or more hexadecimal digits, then nothing or an extension
that a semicolon opens, perhaps after blanks. -/
structure GivesSize (line digits : Bytes) : Prop where
  hex : Numeral.Digits 16 digits
  opens : ∃ extension, line = digits ++ extension ∧
    (extension = [] ∨ (extension.dropWhile isBlank).head? = some 59)

namespace GivesSize
variable {line digits : Bytes}

theorem stops (opens : extension = [] ∨ (extension.dropWhile isBlank).head? = some 59) :
    Numeral.Stops 16 extension := by
  intro c first
  cases extension with
  | nil => cases first
  | cons c' rest =>
    cases first
    rcases opens with none | semicolon
    · cases none
    cases blank : isBlank c with
    | true =>
      obtain rfl | rfl : c = 32 ∨ c = 9 := by simpa [isBlank] using blank
      · decide
      · decide
    | false =>
      rw [List.dropWhile_cons_of_neg (by simp [blank])] at semicolon
      cases semicolon
      decide

/-- The digits of the size are all those the line begins with. -/
theorem cut (gives : GivesSize line digits) :
    digits = line.takeWhile (fun c => (digit 16 c).isSome) ∧
      (line.dropWhile (fun c => (digit 16 c).isSome) = [] ∨
        ((line.dropWhile fun c => (digit 16 c).isSome).dropWhile isBlank).head? =
          some 59) := by
  obtain ⟨extension, rfl, opens⟩ := gives.opens
  rw [List.takeWhile_append_of_pos gives.hex.digits, List.dropWhile_append_of_pos gives.hex.digits]
  cases extension with
  | nil => simp
  | cons c rest =>
    have ends := (stops opens c rfl).1
    rw [List.takeWhile_cons_of_neg (by simp [ends]), List.dropWhile_cons_of_neg (by simp [ends]),
      List.append_nil]
    exact ⟨rfl, opens⟩

theorem refuted (odd : line.takeWhile (fun c => (digit 16 c).isSome) = [] ∨
    ¬ (line.dropWhile (fun c => (digit 16 c).isSome) = [] ∨
      ((line.dropWhile fun c => (digit 16 c).isSome).dropWhile isBlank).head? = some 59)) :
    ¬ ∃ digits, GivesSize line digits := by
  rintro ⟨digits, gives⟩
  obtain ⟨digitsEq, opens⟩ := gives.cut
  rcases odd with none | odd
  · exact gives.hex.nonempty (digitsEq.trans none)
  · exact odd opens

/-- Of a line that follows the grammar `stoul` reads the size, if it can be represented. -/
theorem stoul_ok (gives : GivesSize line digits) (read : stoul 16 line = .ok size) :
    size = value 16 (digits.filterMap (digit 16)) ∧ size < 2 ^ 64 := by
  obtain ⟨extension, rfl, opens⟩ := gives.opens
  simp only [stoul, scan_digits gives.hex (stops opens), bind, Except.bind] at read
  split at read
  · cases read
  · rename_i fits
    cases read
    exact ⟨rfl, Nat.lt_of_not_le fits⟩

end GivesSize

theorem LineReader.awaitLine_held (reader : LineReader) {c : Source}
    (here : find crlf c.view = some pos) : reader.awaitLine c = (.found pos, c) := by
  apply Loop.run_inr
  have here : c.buffer.find crlf = some pos := here
  simp only [round, here]

namespace ChunkedReader

theorem parseChunkSize_held (single : OneLine line) (short : line.length ≤ 64)
    (read : stoul 16 line = .ok size) :
    ∃ r d, parseChunkSize (.holding (line ++ (crlf ++ crlf)) []) = .ok (r, d) := by
  have found : sizeLine.awaitLine (.holding (line ++ (crlf ++ crlf)) []) =
      (.found line.length, .holding (line ++ (crlf ++ crlf)) []) := by
    apply sizeLine.awaitLine_held
    rw [Source.view_holding]
    exact single.find_crlf crlf
  have cut : (Source.holding (line ++ (crlf ++ crlf)) []).view.take line.length = line := by simp
  have enough : line.length + 2 ≤ (Source.holding (line ++ (crlf ++ crlf)) []).view.length := by
    simp [crlf]
  have rest : ((Source.holding (line ++ (crlf ++ crlf)) []).consume (line.length + 2)).unread =
      ChunkedBody.encodeTrailers [] ++ [] := by
    rw [Source.consume_unread enough]
    simp [ChunkedBody.encodeTrailers, crlf]
  obtain ⟨d, skipped, -, -⟩ :=
    skipTrailer_run 0 [] (by decide) (by simp) (Source.valid_holding.consume enough) rest
  simp only [parseChunkSize, found, startChunk, cut, read, if_neg (Nat.not_lt.mpr short),
    skipTrailer, skipped]
  by_cases zero : size = 0
  · rw [if_pos zero]
    exact ⟨_, d, rfl⟩
  · rw [if_neg zero]
    exact ⟨_, _, rfl⟩

/-- Whenever `parseChunkSize` takes a line, the line gives the size that is used: this holds of the
lines that are too long, that `stoul` refuses, or that follow the grammar. -/
theorem size_line_taken_iff (single : OneLine line) :
    (∀ c tail r d, Source.Valid c → c.unread = line ++ (crlf ++ tail) →
        parseChunkSize c = .ok (r, d) →
        ∃ digits, GivesSize line digits ∧
          r.currentChunkSize = value 16 (digits.filterMap (digit 16)) ∧
          r.currentChunkSize < 2 ^ 64) ↔
      64 < line.length ∨ (∃ error, stoul 16 line = .error error) ∨
        ∃ digits, GivesSize line digits := by
  constructor
  · intro sound
    by_cases long : 64 < line.length
    · exact .inl long
    refine .inr ?_
    cases read : stoul 16 line with
    | error error => exact .inl ⟨error, rfl⟩
    | ok size =>
      obtain ⟨r, d, parsed⟩ := parseChunkSize_held single (Nat.le_of_not_lt long) read
      obtain ⟨digits, gives, -⟩ := sound _ crlf r d Source.valid_holding
        (by rw [Source.unread_holding, List.append_nil]) parsed
      exact .inr ⟨digits, gives⟩
  · intro condition c tail r d valid whole parsed
    obtain ⟨line', size, e, single', short, read, -, cut, ends⟩ := parseChunkSize_ok valid parsed
    obtain ⟨rfl, -⟩ := single'.cut_inj single (cut.symm.trans whole)
    rcases condition with long | ⟨error, refused⟩ | ⟨digits, gives⟩
    · exact absurd short (Nat.not_le.mpr long)
    · rw [read] at refused
      cases refused
    obtain ⟨counted, fits⟩ := gives.stoul_ok read
    have used : r.currentChunkSize = size := by
      rcases ends with ⟨rfl, -, rfl⟩ | ⟨-, -, rfl⟩
      · rfl
      · rfl
    exact ⟨digits, gives, used.trans counted, used ▸ fits⟩

theorem size_line_taken_hex : OneLine (ascii "1a;x") ∧
      ∀ c tail r d, Source.Valid c → c.unread = ascii "1a;x" ++ (crlf ++ tail) →
        parseChunkSize c = .ok (r, d) →
        ∃ digits, GivesSize (ascii "1a;x") digits ∧
          r.currentChunkSize = value 16 (digits.filterMap (digit 16)) ∧
          r.currentChunkSize < 2 ^ 64 := by
  have single : OneLine (ascii "1a;x") := by decide
  refine ⟨single, (size_line_taken_iff single).mpr (.inr (.inr ⟨ascii "1a", ⟨?_, ?_⟩, ?_⟩))⟩
  · decide
  · decide +kernel
  · exact ⟨ascii ";x", rfl, .inr (by decide)⟩

/-- Signs, the prefix `0x` and other text after the digits are taken by `stoul`. -/
theorem odd_size_lines_taken : (parseChunkSize (.holding (ascii "-1\r\n") []) =
        .ok ({ state := .readData, currentChunkSize := 2 ^ 64 - 1 },
          (Source.holding (ascii "-1\r\n") []).consume 4) ∧
      ¬ ∃ digits, GivesSize (ascii "-1") digits) ∧
    (parseChunkSize (.holding (ascii "+5\r\n") []) =
        .ok ({ state := .readData, currentChunkSize := 5 },
          (Source.holding (ascii "+5\r\n") []).consume 4) ∧
      ¬ ∃ digits, GivesSize (ascii "+5") digits) ∧
    (parseChunkSize (.holding (ascii "0x10\r\n") []) =
        .ok ({ state := .readData, currentChunkSize := 16 },
          (Source.holding (ascii "0x10\r\n") []).consume 6) ∧
      ¬ ∃ digits, GivesSize (ascii "0x10") digits) ∧
    parseChunkSize (.holding (ascii "5zz\r\n") []) =
        .ok ({ state := .readData, currentChunkSize := 5 },
          (Source.holding (ascii "5zz\r\n") []).consume 5) ∧
      ¬ ∃ digits, GivesSize (ascii "5zz") digits := by
  refine ⟨⟨?_, GivesSize.refuted (.inl ?_)⟩, ⟨?_, GivesSize.refuted (.inl ?_)⟩,
    ⟨?_, GivesSize.refuted (.inr ?_)⟩, ?_, GivesSize.refuted (.inr ?_)⟩
  all_goals decide +kernel

end ChunkedReader
end Nitrocoro.Http
