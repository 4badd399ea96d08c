import Nitrocoro.Http.FramingProofs

/-! How far `parseNext` reads ahead: the header block of a request is cut off exactly, and the
bytes behind it that its last read brought along stay in the buffer. -/
namespace Nitrocoro.Http
open Text Io Utils HeadReader
open List

def IsHeaderBlock (head : Bytes) : Prop :=
  ∃ lines, head = encodeLines (lines ++ [[]]) ∧ ∀ line ∈ lines, line ≠ [] ∧ OneLine line

/-- Lines were cut off the bytes of a connection, and each read for them was needed. -/
structure CutOff (c : Source) (lines : List Bytes) (reads : Nat) (d : Source) : Prop where
  valid : d.Valid
  stream : d.stream = c.stream.after 4096 reads
  bytes : c.view ++ c.stream.received 4096 reads = encodeLines lines ++ d.view
  needed : ∀ j < reads, c.view.length + (c.stream.received 4096 j).length <
    (encodeLines lines).length

theorem CutOff.line {reg : MethodRegistry} {c d e : Source} (cut : CutOff c lines reads d)
    (found : (requestHead reg).wait.awaitLine d = (.found pos, e)) : OneLine (e.view.take pos) ∧
      ∃ reads', CutOff c (lines ++ [e.view.take pos]) reads' (e.consume (pos + 2)) := by
  obtain ⟨k, valid, stream, view, ends, needed⟩ := LineReader.awaitLine_reads _ cut.valid found
  obtain ⟨split, single⟩ := find_some_cut ends (by decide)
  have enough : pos + 2 ≤ e.view.length := find_some_le ends
  have more : encodeLines (lines ++ [e.view.take pos]) =
      encodeLines lines ++ (e.view.take pos ++ crlf) := by
    simp [encodeLines]
  have longer : (encodeLines (lines ++ [e.view.take pos])).length =
      (encodeLines lines).length + (pos + 2) := by
    rw [more]
    simp only [length_append, length_take, crlf, length_cons, length_nil]
    omega
  refine ⟨single, reads + k, valid.consume enough, ?_, ?_, ?_⟩
  · rw [Stream.after_add, ← cut.stream]
    exact stream
  · have left : (e.consume (pos + 2)).view = e.view.drop (pos + 2) := StringBuffer.view_consume
    rw [Stream.received_add, ← append_assoc, cut.bytes, ← cut.stream, append_assoc,
      show d.view ++ d.stream.received 4096 k = e.view from view.symm, more, left,
      append_assoc, append_assoc]
    exact congrArg _ split
  intro j below
  rw [longer]
  by_cases earlier : j < reads
  · exact Nat.lt_add_right _ (cut.needed j earlier)
  obtain ⟨i, rfl⟩ := Nat.exists_eq_add_of_le (Nat.le_of_not_lt earlier)
  have here := needed i (by omega)
  have before := congrArg length cut.bytes
  rw [Stream.received_add, ← cut.stream]
  simp only [length_append] at before ⊢
  change d.view.length + (d.stream.received 4096 i).length < pos + 2 at here
  omega

/-- A request that is parsed without an error takes up its header block, and the reads for it
stop as soon as the block is there. -/
theorem parseNext_reads {reg : MethodRegistry} {c d : Source} (valid : c.Valid)
    (parsed : (requestHead reg).parseNext c = .ok (result, d)) (fine : result.errorCode = .none) :
    ∃ head k, IsHeaderBlock head ∧ d.stream = c.stream.after 4096 k ∧
      c.view ++ c.stream.received 4096 k = head ++ d.view ∧
      ∀ j < k, c.view.length + (c.stream.received 4096 j).length < head.length := by
  have ended : ∃ lines k, (∀ line ∈ lines, line ≠ [] ∧ OneLine line) ∧
      CutOff c (lines ++ [[]]) k d := by
    refine Loop.run_spec (requestHead reg).round_decreases
      (fun s => RequestParser.Waiting s.1 ∧ ∃ lines k,
        (∀ line ∈ lines, line ≠ [] ∧ OneLine line) ∧ CutOff c lines k s.2.2)
      (fun r => ∀ result d, r = .ok (result, d) → result.errorCode = .none →
        ∃ lines k, (∀ line ∈ lines, line ≠ [] ∧ OneLine line) ∧ CutOff c (lines ++ [[]]) k d)
      ?_ ?_ ?_ result d parsed fine
    · rintro ⟨p, count, e⟩ t ⟨waiting, lines, k, whole, cut⟩ goes
      obtain ⟨pos, f, q, found, read, open_, rfl⟩ := (requestHead reg).round_inl goes
      obtain ⟨single, k', cut'⟩ := cut.line found
      rcases waiting.parseLine read with ⟨still, -, some⟩ | ⟨done, -⟩ | failed
      · refine ⟨still, _, k', ?_, cut'⟩
        intro line mem
        rcases mem_append.mp mem with earlier | last
        · exact whole line earlier
        · rw [mem_singleton.mp last]
          exact ⟨some, single⟩
      · exact absurd (.inr done) open_
      · exact absurd (.inl failed.state) open_
    · rintro ⟨p, count, e⟩ r ⟨waiting, lines, k, whole, cut⟩ leaves result d rfl fine
      obtain ⟨pos, f, q, found, read, closed, rfl, rfl⟩ :=
        (requestHead reg).round_inr_ok leaves fine
      obtain ⟨-, k', cut'⟩ := cut.line found
      rcases waiting.parseLine read with ⟨-, state, -⟩ | ⟨-, -, empty⟩ | failed
      · rw [state] at closed
        simp at closed
      · exact ⟨lines, k', whole, empty ▸ cut'⟩
      · exact absurd fine failed.code
    · exact ⟨⟨.inl rfl, rfl⟩, [], 0, by simp, valid, rfl, by simp [Stream.received,
        encodeLines], by simp⟩
  obtain ⟨lines, k, whole, cut⟩ := ended
  exact ⟨_, k, ⟨lines, rfl, whole⟩, cut.stream, cut.bytes, cut.needed⟩

end Nitrocoro.Http
