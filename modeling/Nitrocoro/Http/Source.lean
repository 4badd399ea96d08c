import Nitrocoro.Io.Stream
import Nitrocoro.Lib.Loop
import Nitrocoro.Utils.StringBuffer

/-! The buffer and the stream that the request parser and the body readers of a connection
share, and the loop by which each of them waits for a line. -/
namespace Nitrocoro.Http
open Text Utils Io
open List (append_assoc length_append length)
open List hiding tail

def crlf : Bytes := [13, 10]

structure Source where
  buffer : StringBuffer := {}
  stream : Stream := {}
  deriving DecidableEq

namespace Source
variable {c d : Source} {line tail : Bytes}

def view (c : Source) : Bytes := c.buffer.view

def unread (c : Source) : Bytes := c.buffer.view ++ c.stream.rest

def size (c : Source) : Nat := c.buffer.remainSize + c.stream.rest.length

def Valid (c : Source) : Prop := c.buffer.Valid

def consume (n : Nat) (c : Source) : Source := { c with buffer := c.buffer.consume n }

/-- `prepareWrite(len)`, the read into it and `commitWrite`; `none` at the end of the stream. -/
def fetch (len : Nat) (c : Source) : Option Source :=
  let (bytes, stream) := c.stream.read len
  if bytes = [] then none
  else some { buffer := ((c.buffer.prepareWrite len).fill bytes).commitWrite bytes.length, stream }

theorem fetch_eq_some (fetched : c.fetch len = some d) :
    (c.stream.read len).1 ≠ [] ∧ d.stream = (c.stream.read len).2 ∧
      d.buffer = ((c.buffer.prepareWrite len).fill (c.stream.read len).1).commitWrite
        (c.stream.read len).1.length := by
  simp only [fetch] at fetched
  split at fetched
  · cases fetched
  · rename_i some
    cases fetched
    exact ⟨some, rfl, rfl⟩

theorem fetch_rest (fetched : c.fetch len = some d) :
    d.stream.rest.length < c.stream.rest.length := by
  obtain ⟨some, stream, -⟩ := fetch_eq_some fetched
  have split := congrArg length (c.stream.read_append len)
  have := length_pos_iff.mpr some
  rw [length_append] at split
  rw [stream]
  omega

theorem fetch_size (fetched : c.fetch len = some d) : d.size ≤ c.size := by
  obtain ⟨-, stream, buffer⟩ := fetch_eq_some fetched
  have split := congrArg length (c.stream.read_append len)
  have same := c.buffer.remainSize_prepareWrite len
  rw [length_append] at split
  simp only [size, stream, buffer, StringBuffer.remainSize_receive]
  simp only [StringBuffer.remainSize] at same ⊢
  split <;> omega

theorem fetch_valid (valid : c.Valid) (fetched : c.fetch len = some d) : d.Valid := by
  obtain ⟨-, -, buffer⟩ := fetch_eq_some fetched
  rw [Valid, buffer]
  exact (StringBuffer.Valid.prepareWrite valid).receive

theorem fetch_view (valid : c.Valid) (fetched : c.fetch len = some d) :
    d.view = c.view ++ (c.stream.read len).1 := by
  obtain ⟨-, -, buffer⟩ := fetch_eq_some fetched
  rw [view, buffer, StringBuffer.view_receive (StringBuffer.Valid.prepareWrite valid),
    StringBuffer.view_prepareWrite valid]
  rfl

theorem fetch_unread (valid : c.Valid) (fetched : c.fetch len = some d) : d.unread = c.unread := by
  obtain ⟨-, stream, -⟩ := fetch_eq_some fetched
  have moved := fetch_view valid fetched
  rw [view] at moved
  rw [unread, moved, stream, append_assoc, Stream.read_append]
  rfl

theorem fetch_isSome (asked : 0 < len) (left : c.stream.rest ≠ []) : ∃ d, c.fetch len = some d := by
  have some := length_pos_iff.mp (Stream.length_read_pos asked left)
  simp only [fetch, if_neg some]
  exact ⟨_, rfl⟩

theorem fetch_none (asked : 0 < len) (nothing : c.fetch len = none) : c.stream.rest = [] := by
  by_contra left
  obtain ⟨d, fetched⟩ := fetch_isSome asked left
  rw [nothing] at fetched
  cases fetched

theorem consume_unread (enough : n ≤ c.view.length) : (c.consume n).unread = c.unread.drop n := by
  rw [unread, consume, StringBuffer.view_consume]
  exact (drop_append_of_le_length enough).symm

theorem Valid.consume (valid : c.Valid) (enough : n ≤ c.view.length) : (c.consume n).Valid :=
  StringBuffer.Valid.consume valid (Nat.le_trans enough StringBuffer.length_view_le)

theorem consume_size (enough : n ≤ c.view.length) : (c.consume n).size + n = c.size := by
  have := Nat.le_trans enough (StringBuffer.length_view_le)
  simp only [size, consume, StringBuffer.remainSize_consume]
  omega

/-- How many of the unread bytes are in the buffer after `k` reads. -/
def arrived (len : Nat) (c : Source) (k : Nat) : Nat :=
  c.view.length + (c.stream.received len k).length

theorem arrived_mono (len : Nat) (c : Source) (below : j ≤ k) : c.arrived len j ≤ c.arrived len k := by
  obtain ⟨-, rfl⟩ := Nat.exists_eq_add_of_le below
  rw [arrived, arrived, Io.Stream.received_add, length_append]
  omega

theorem view_start : c.view <+: c.unread := ⟨c.stream.rest, rfl⟩

theorem Valid.length_view (valid : c.Valid) : c.view.length = c.buffer.remainSize :=
  StringBuffer.Valid.length_view valid

end Source

def OneLine (line : Bytes) : Prop := find crlf line = none

instance : Decidable (OneLine line) := inferInstanceAs (Decidable (_ = _))

theorem OneLine.find_crlf (single : OneLine line) (tail : Bytes) :
    find crlf (line ++ (crlf ++ tail)) = some line.length := by
  induction line with
  | nil => simp [find, crlf]
  | cons a line ih =>
    simp only [OneLine, find] at single ih
    split at single
    · cases single
    rename_i notHere
    rw [Option.map_eq_none_iff] at single
    rw [cons_append, find, if_neg, ih single]
    · rfl
    · cases line with
      | nil => simp [crlf]
      | cons b line => simpa [crlf] using notHere

theorem OneLine.find_start (single : OneLine line) (starts : line ++ crlf <+: bytes) :
    find crlf bytes = some line.length := by
  obtain ⟨more, rfl⟩ := starts
  rw [append_assoc]
  exact single.find_crlf more

theorem OneLine.cut_inj (single : OneLine line) (single' : OneLine other)
    (same : line ++ (crlf ++ tail) = other ++ (crlf ++ tail')) : line = other ∧ tail = tail' := by
  have ends := single.find_crlf tail
  rw [same, single'.find_crlf tail'] at ends
  obtain ⟨line, rest⟩ := append_inj same (Option.some.inj ends).symm
  exact ⟨line, append_cancel_left rest⟩

/-- How a caller waits for a line: the size of its reads and the unfinished line it gives up on. -/
structure LineReader where
  len : Nat
  tooLong : Nat → Bool
  asks : 0 < len

inductive LineEnd where
  | found (pos : Nat)
  | tooLong
  | closed
  deriving DecidableEq

namespace LineReader
variable (reader : LineReader) {c d : Source} {line tail : Bytes}

def round (c : Source) : Source ⊕ (LineEnd × Source) :=
  match c.buffer.find crlf with
  | some pos => .inr (.found pos, c)
  | none =>
    if reader.tooLong c.buffer.remainSize then .inr (.tooLong, c)
    else match c.fetch reader.len with
      | none => .inr (.closed, c)
      | some d => .inl d

theorem round_inl (goes : reader.round c = .inl d) :
    c.buffer.find crlf = none ∧ reader.tooLong c.buffer.remainSize = false ∧
      c.fetch reader.len = some d := by
  simp only [round] at goes
  split at goes
  · cases goes
  rename_i missing
  split at goes
  · cases goes
  rename_i short
  split at goes
  · cases goes
  · rename_i fetched
    cases goes
    exact ⟨missing, by simpa using short, fetched⟩

theorem round_inr (leaves : reader.round c = .inr r) :
    (∃ pos, r = (.found pos, c) ∧ find crlf c.view = some pos) ∨
      r = (.tooLong, c) ∧ find crlf c.view = none ∧ reader.tooLong c.buffer.remainSize ∨
      r = (.closed, c) ∧ find crlf c.view = none ∧ c.fetch reader.len = none := by
  simp only [round] at leaves
  split at leaves
  · rename_i pos found
    cases leaves
    exact .inl ⟨pos, rfl, found⟩
  rename_i missing
  split at leaves
  · rename_i gaveUp
    cases leaves
    exact .inr (.inl ⟨rfl, missing, gaveUp⟩)
  split at leaves
  · rename_i nothing
    cases leaves
    exact .inr (.inr ⟨rfl, missing, nothing⟩)
  · cases leaves

theorem round_keeps (goes : reader.round c = .inl d) (kept : c.Valid ∧ c.unread = bytes) :
    d.Valid ∧ d.unread = bytes := by
  have fetched := (reader.round_inl goes).2.2
  exact ⟨Source.fetch_valid kept.1 fetched, (Source.fetch_unread kept.1 fetched).trans kept.2⟩

theorem round_decreases : Loop.Decreases reader.round (fun c => c.stream.rest.length) :=
  fun _ _ goes => Source.fetch_rest (reader.round_inl goes).2.2

/-- Reads until the buffer holds a line end, or there is a reason to stop. -/
def awaitLine (c : Source) : LineEnd × Source := Loop.run reader.round_decreases c

theorem awaitLine_size : (reader.awaitLine c).2.size ≤ c.size ∧
      ∀ pos, (reader.awaitLine c).1 = .found pos → pos + 2 ≤ (reader.awaitLine c).2.view.length := by
  apply Loop.run_spec reader.round_decreases (fun d => d.size ≤ c.size)
    (fun r => r.2.size ≤ c.size ∧ ∀ pos, r.1 = .found pos → pos + 2 ≤ r.2.view.length)
  · intro d e le goes
    exact Nat.le_trans (Source.fetch_size (reader.round_inl goes).2.2) le
  · intro d r le leaves
    rcases reader.round_inr leaves with ⟨pos, rfl, found⟩ | ⟨rfl, -⟩ | ⟨rfl, -⟩
    · refine ⟨le, ?_⟩
      rintro _ ⟨⟩
      exact find_some_le found
    · exact ⟨le, nofun⟩
    · exact ⟨le, nofun⟩
  · exact Nat.le_refl _

theorem awaitLine_consume (found : reader.awaitLine c = (.found pos, d)) :
    (d.consume (pos + 2)).size < c.size := by
  obtain ⟨le, long⟩ := reader.awaitLine_size
  rw [found] at le long
  have used : (d.consume (pos + 2)).size + (pos + 2) = d.size :=
    Source.consume_size (long pos rfl)
  dsimp only at le
  omega

theorem length_of_missing (valid : c.Valid) (whole : c.unread = line ++ (crlf ++ tail))
    (single : OneLine line) (missing : find crlf c.view = none) :
    c.buffer.remainSize ≤ line.length + 1 := by
  by_contra long
  have starts : line ++ crlf <+: c.view := by
    apply prefix_of_prefix_length_le ⟨tail, by rw [whole, append_assoc]⟩ c.view_start
    rw [valid.length_view, length_append]
    simp only [crlf, length_cons, length_nil]
    omega
  rw [single.find_start starts] at missing
  cases missing

/-- However the bytes of a line arrive, the wait for it ends at the line's end, unless the reader
gives up on the part of the line that is there. -/
theorem awaitLine_ends (valid : c.Valid) (whole : c.unread = line ++ (crlf ++ tail))
    (single : OneLine line) :
    (reader.awaitLine c).2.Valid ∧ (reader.awaitLine c).2.unread = line ++ (crlf ++ tail) ∧
      ((reader.awaitLine c).1 = .found line.length ∨
        ((reader.awaitLine c).1 = .tooLong ∧ ∃ n ≤ line.length + 1, reader.tooLong n)) := by
  have ends := single.find_crlf tail
  apply Loop.run_spec reader.round_decreases
    (fun d => d.Valid ∧ d.unread = line ++ (crlf ++ tail))
    (fun r => r.2.Valid ∧ r.2.unread = line ++ (crlf ++ tail) ∧
      (r.1 = .found line.length ∨ (r.1 = .tooLong ∧ ∃ n ≤ line.length + 1, reader.tooLong n)))
  · intro d e kept goes
    exact reader.round_keeps goes kept
  · rintro d r ⟨valid, whole⟩ leaves
    rcases reader.round_inr leaves with ⟨pos, rfl, found⟩ | ⟨rfl, missing, gaveUp⟩ |
      ⟨rfl, missing, nothing⟩
    · -- a line end in the buffer is the line's own, since more bytes do not move it
      have stays := find_append found d.stream.rest
      rw [show d.view ++ d.stream.rest = d.unread from rfl, whole, ends] at stays
      exact ⟨valid, whole, .inl (by rw [Option.some.inj stays])⟩
    · exact ⟨valid, whole, .inr ⟨rfl, _, length_of_missing valid whole single missing, gaveUp⟩⟩
    have all : d.view = d.unread := by
      rw [Source.unread, Source.fetch_none reader.asks nothing, append_nil]
      rfl
    rw [all, whole, ends] at missing
    cases missing
  · exact ⟨valid, whole⟩

theorem awaitLine_cut (valid : c.Valid) (whole : c.unread = line ++ (crlf ++ tail))
    (single : OneLine line) (found : (reader.awaitLine c).1 = .found line.length) :
    ∃ d, reader.awaitLine c = (.found line.length, d) ∧ d.view.take line.length = line ∧
      (d.consume (line.length + 2)).Valid ∧ (d.consume (line.length + 2)).unread = tail := by
  obtain ⟨valid', whole', -⟩ := reader.awaitLine_ends valid whole single
  have enough := (reader.awaitLine_size).2 _ found
  have text : (reader.awaitLine c).2.view.take line.length = line := by
    have starts : line <+: (reader.awaitLine c).2.view :=
      prefix_of_prefix_length_le ⟨crlf ++ tail, whole'.symm⟩
        (reader.awaitLine c).2.view_start (by omega)
    exact (prefix_iff_eq_take.mp starts).symm
  refine ⟨(reader.awaitLine c).2, Prod.ext found rfl, text, valid'.consume enough, ?_⟩
  rw [Source.consume_unread enough, whole', ← append_assoc]
  exact drop_left' (by simp [crlf])

theorem awaitLine_found (valid : c.Valid) (whole : c.unread = line ++ (crlf ++ tail))
    (single : OneLine line) (short : ∀ n ≤ line.length + 1, reader.tooLong n = false) :
    ∃ d, reader.awaitLine c = (.found line.length, d) ∧ d.view.take line.length = line ∧
      (d.consume (line.length + 2)).Valid ∧ (d.consume (line.length + 2)).unread = tail := by
  obtain ⟨-, -, found | ⟨-, n, le, long⟩⟩ := reader.awaitLine_ends valid whole single
  · exact reader.awaitLine_cut valid whole single found
  · rw [short n le] at long
    cases long

/-- The wait is the same for all ways in which the unread bytes are split between the buffer and
reads to come. -/
theorem awaitLine_some (valid : c.Valid) (ends : find crlf c.unread = some pos)
    (short : ∀ n ≤ pos + 1, reader.tooLong n = false) :
    ∃ d, reader.awaitLine c = (.found pos, d) ∧ d.unread = c.unread ∧
      d.view.take pos = c.unread.take pos ∧ (d.consume (pos + 2)).Valid ∧
      (d.consume (pos + 2)).unread = c.unread.drop (pos + 2) := by
  obtain ⟨cut, single⟩ := find_some_cut ends (by decide)
  have length : (c.unread.take pos).length = pos :=
    length_take_of_le (Nat.le_of_add_right_le (find_some_le ends))
  rw [← length] at short
  obtain ⟨d, found, text, valid', rest⟩ := reader.awaitLine_found valid cut single short
  obtain ⟨-, whole, -⟩ := reader.awaitLine_ends valid cut single
  rw [found, ← cut] at whole
  rw [length] at found text valid' rest
  exact ⟨d, found, whole, text, valid', rest⟩

theorem awaitLine_none (valid : c.Valid) (endless : OneLine c.unread)
    (short : ∀ n ≤ c.unread.length, reader.tooLong n = false) :
    ∃ d, reader.awaitLine c = (.closed, d) ∧ d.unread = c.unread := by
  have waits : (reader.awaitLine c).1 = .closed ∧ (reader.awaitLine c).2.unread = c.unread := by
    apply Loop.run_spec reader.round_decreases (fun d => d.Valid ∧ d.unread = c.unread)
      (fun r => r.1 = .closed ∧ r.2.unread = c.unread)
    · intro d e kept goes
      exact reader.round_keeps goes kept
    · rintro d r ⟨valid, whole⟩ leaves
      rcases reader.round_inr leaves with ⟨pos, rfl, found⟩ | ⟨rfl, -, gaveUp⟩ | ⟨rfl, -⟩
      · have stays := find_append found d.stream.rest
        rw [show d.view ++ d.stream.rest = d.unread from rfl, whole, endless] at stays
        cases stays
      · have held : d.buffer.remainSize ≤ c.unread.length := by
          rw [← valid.length_view, ← whole]
          exact d.view_start.length_le
        rw [short _ held] at gaveUp
        cases gaveUp
      · exact ⟨rfl, whole⟩
    · exact ⟨valid, rfl⟩
  exact ⟨(reader.awaitLine c).2, Prod.ext waits.1 rfl, waits.2⟩

/-- `d` is `c` after `k` reads, before each of which no line end was there. -/
structure Reads (c : Source) (k : Nat) (d : Source) : Prop where
  valid : d.Valid
  stream : d.stream = c.stream.after reader.len k
  view : d.view = c.view ++ c.stream.received reader.len k
  missed : ∀ j < k, find crlf (c.view ++ c.stream.received reader.len j) = none

variable {reader}

theorem Reads.remainSize (reads : reader.Reads c k d) :
    d.buffer.remainSize = c.arrived reader.len k := by
  rw [← reads.valid.length_view, reads.view, length_append]
  rfl

theorem Reads.next (reads : reader.Reads c k d) (goes : reader.round d = .inl e) :
    reader.Reads c (k + 1) e := by
  obtain ⟨missing, -, fetched⟩ := reader.round_inl goes
  obtain ⟨-, stream, -⟩ := Source.fetch_eq_some fetched
  refine ⟨Source.fetch_valid reads.valid fetched, ?_, ?_, ?_⟩
  · rw [stream, reads.stream, Stream.after_add]
    rfl
  · rw [Source.fetch_view reads.valid fetched, reads.view, reads.stream, Stream.received_add]
    simp [Stream.received]
  intro j below
  rcases Nat.lt_succ_iff_lt_or_eq.mp below with earlier | rfl
  · exact reads.missed j earlier
  · rw [← reads.view]
    exact missing

theorem Reads.short (reads : reader.Reads c k d) (here : find crlf d.view = some pos)
    (below : j < k) : c.arrived reader.len j < pos + 2 := by
  by_contra long
  obtain ⟨cut, single⟩ := find_some_cut here (by decide)
  have starts : d.view.take pos ++ crlf <+: d.view :=
    ⟨_, by rw [append_assoc]; exact cut.symm⟩
  have there : c.view ++ c.stream.received reader.len j <+: d.view := by
    obtain ⟨more, rfl⟩ := Nat.exists_eq_add_of_lt below
    rw [reads.view, Nat.add_assoc, Stream.received_add, ← append_assoc]
    exact prefix_append _ _
  have part : d.view.take pos ++ crlf <+: c.view ++ c.stream.received reader.len j := by
    apply prefix_of_prefix_length_le starts there
    simp only [Source.arrived] at long
    simp only [length_append, length_take, crlf, length_cons, length_nil]
    omega
  have found := OneLine.find_start single part
  rw [reads.missed j below] at found
  cases found

variable (reader)

theorem awaitLine_spec (valid : c.Valid) : ∃ k, reader.Reads c k (reader.awaitLine c).2 ∧
      (∀ j < k, reader.tooLong (c.arrived reader.len j) = false) ∧
      ((∃ pos, (reader.awaitLine c).1 = .found pos ∧
          find crlf (reader.awaitLine c).2.view = some pos) ∨
        (reader.awaitLine c).1 = .tooLong ∧ find crlf (reader.awaitLine c).2.view = none ∧
          reader.tooLong (c.arrived reader.len k) ∨
        (reader.awaitLine c).1 = .closed ∧ find crlf (reader.awaitLine c).2.view = none ∧
          (reader.awaitLine c).2.fetch reader.len = none) := by
  apply Loop.run_spec reader.round_decreases
    (fun e => ∃ k, reader.Reads c k e ∧ ∀ j < k, reader.tooLong (c.arrived reader.len j) = false)
    (fun r => ∃ k, reader.Reads c k r.2 ∧
      (∀ j < k, reader.tooLong (c.arrived reader.len j) = false) ∧
      ((∃ pos, r.1 = .found pos ∧ find crlf r.2.view = some pos) ∨
      r.1 = .tooLong ∧ find crlf r.2.view = none ∧ reader.tooLong (c.arrived reader.len k) ∨
      r.1 = .closed ∧ find crlf r.2.view = none ∧ r.2.fetch reader.len = none))
  · rintro e f ⟨k, reads, patient⟩ goes
    refine ⟨k + 1, reads.next goes, ?_⟩
    intro j below
    rcases Nat.lt_succ_iff_lt_or_eq.mp below with earlier | rfl
    · exact patient j earlier
    · rw [← reads.remainSize]
      exact (reader.round_inl goes).2.1
  · rintro e r ⟨k, reads, patient⟩ leaves
    refine ⟨k, ?_⟩
    rw [← reads.remainSize]
    rcases reader.round_inr leaves with ⟨pos, rfl, here⟩ | ⟨rfl, missing, long⟩ |
      ⟨rfl, missing, nothing⟩
    · exact ⟨reads, patient, .inl ⟨pos, rfl, here⟩⟩
    · exact ⟨reads, patient, .inr (.inl ⟨rfl, missing, long⟩)⟩
    · exact ⟨reads, patient, .inr (.inr ⟨rfl, missing, nothing⟩)⟩
  · exact ⟨0, ⟨valid, rfl, (append_nil _).symm, by simp⟩, by simp⟩

/-- The wait for a line reads on only while what it has does not reach the line's end. -/
theorem awaitLine_reads (valid : c.Valid) (found : reader.awaitLine c = (.found pos, d)) :
    ∃ k, d.Valid ∧ d.stream = c.stream.after reader.len k ∧
      d.view = c.view ++ c.stream.received reader.len k ∧ find crlf d.view = some pos ∧
      ∀ j < k, c.view.length + (c.stream.received reader.len j).length < pos + 2 := by
  obtain ⟨k, reads, -, ends⟩ := reader.awaitLine_spec valid
  rw [found] at reads ends
  rcases ends with ⟨_, ⟨⟩, here⟩ | ⟨⟨⟩, _⟩ | ⟨⟨⟩, _⟩
  exact ⟨k, reads.valid, reads.stream, reads.view, here, fun j below => reads.short here below⟩

theorem awaitLine_takes (valid : c.Valid) (found : reader.awaitLine c = (.found pos, d)) :
    ∃ line, OneLine line ∧ line.length = pos ∧ d.view.take pos = line ∧
      (d.consume (pos + 2)).Valid ∧ c.unread = line ++ (crlf ++ (d.consume (pos + 2)).unread) := by
  obtain ⟨k, valid', stream, view, here, -⟩ := reader.awaitLine_reads valid found
  obtain ⟨cut, single⟩ := find_some_cut here (by decide)
  have enough : pos + 2 ≤ d.view.length := find_some_le here
  have same : d.unread = c.unread := by
    rw [Source.unread, show d.buffer.view = d.view from rfl, view, stream, append_assoc,
      Stream.received_append]
    rfl
  refine ⟨d.view.take pos, single, length_take_of_le (by omega), rfl, valid'.consume enough, ?_⟩
  rw [← same, Source.consume_unread enough, show d.unread = d.view ++ d.stream.rest from rfl,
    drop_append_of_le_length enough, ← append_assoc crlf, ← append_assoc]
  exact congrArg (· ++ d.stream.rest) cut

/-- A read ends in the line that begins at `start` when the part of it that is there is already too
long. -/
def Overruns (c : Source) (start : Nat) (line : Bytes) : Prop :=
  ∃ k n, c.arrived reader.len k = start + n ∧ n ≤ line.length + 1 ∧ reader.tooLong n

theorem awaitLine_overruns (valid : c.Valid) (whole : c.unread = line ++ (crlf ++ tail))
    (single : OneLine line) (long : reader.Overruns c 0 line) :
    (reader.awaitLine c).1 = .tooLong := by
  obtain ⟨j, n, arrived, le, long⟩ := long
  obtain ⟨-, -, found | ⟨gaveUp, -⟩⟩ := reader.awaitLine_ends valid whole single
  · -- the reads went past the one that leaves too much of the line, and it stopped none of them
    have enough := (reader.awaitLine_size).2 _ found
    obtain ⟨k, reads, patient, -⟩ := reader.awaitLine_spec valid
    rw [reads.valid.length_view, reads.remainSize] at enough
    rw [Nat.zero_add] at arrived
    subst arrived
    rcases Nat.lt_or_ge j k with earlier | later
    · rw [patient j earlier] at long
      cases long
    · have := c.arrived_mono reader.len later
      omega
  · exact gaveUp

theorem awaitLine_fits (valid : c.Valid) (whole : c.unread = line ++ (crlf ++ tail))
    (single : OneLine line) (fits : ¬ reader.Overruns c 0 line) :
    ∃ d, reader.awaitLine c = (.found line.length, d) ∧ d.view.take line.length = line ∧
      (d.consume (line.length + 2)).Valid ∧ (d.consume (line.length + 2)).unread = tail ∧
      ∀ start other, reader.Overruns (d.consume (line.length + 2)) start other ↔
        reader.Overruns c (line.length + 2 + start) other := by
  obtain ⟨k, reads, -, ends⟩ := reader.awaitLine_spec valid
  obtain ⟨valid', whole', outcome⟩ := reader.awaitLine_ends valid whole single
  have found : (reader.awaitLine c).1 = .found line.length := by
    rcases outcome with found | ⟨gaveUp, -⟩
    · exact found
    rw [gaveUp] at ends
    rcases ends with ⟨_, ⟨⟩, _⟩ | ⟨_, missing, long⟩ | ⟨⟨⟩, _⟩
    refine absurd ⟨k, c.arrived reader.len k, (Nat.zero_add _).symm, ?_, long⟩ fits
    rw [← reads.remainSize]
    exact length_of_missing valid' whole' single missing
  obtain ⟨d, waits, text, valid'', rest⟩ := reader.awaitLine_cut valid whole single found
  rw [waits] at reads ends
  have reads : reader.Reads c k d := reads
  refine ⟨d, waits, text, valid'', rest, ?_⟩
  rcases ends with ⟨_, ⟨⟩, here⟩ | ⟨⟨⟩, _⟩ | ⟨⟨⟩, _⟩
  have enough : line.length + 2 ≤ d.view.length := find_some_le here
  have shift : ∀ j, (d.consume (line.length + 2)).arrived reader.len j + (line.length + 2)
      = c.arrived reader.len (k + j) := by
    intro j
    have left : (d.consume (line.length + 2)).view.length = d.view.length - (line.length + 2) := by
      rw [Source.view, Source.consume, StringBuffer.view_consume, length_drop]
      rfl
    have size := congrArg length reads.view
    rw [length_append] at size
    have same : (d.consume (line.length + 2)).stream = d.stream := rfl
    rw [Source.arrived, Source.arrived, same, Stream.received_add, ← reads.stream, length_append]
    omega
  intro start other
  constructor
  · rintro ⟨j, n, arrived, le, long⟩
    exact ⟨k + j, n, by rw [← shift]; omega, le, long⟩
  rintro ⟨j, n, arrived, le, long⟩
  rcases Nat.lt_or_ge j k with earlier | later
  · have := reads.short here earlier
    omega
  · obtain ⟨j, rfl⟩ := Nat.exists_eq_add_of_le later
    refine ⟨j, n, ?_, le, long⟩
    have := shift j
    omega

end LineReader
end Nitrocoro.Http
