import Nitrocoro.Http.OutgoingMessage

/-! The header block of a message and the bytes behind it agree, unless the caller announces
chunked coding and the block also gets a length, or goes on after the `end`. -/
namespace Nitrocoro.Http
open Text List OrderedMap HttpHeaderMap MessageKind BodyWriter

namespace HttpHeaderMap
variable {headers : HttpHeaderMap} {header : HttpHeader}

/-- The headers announce chunked coding, in upper or lower case. -/
def SaysChunked (headers : HttpHeaderMap) : Prop :=
  (headers.lookup NameCode.TransferEncoding.codeToName).any fun header =>
    (find (ascii "chunked") (toLower header.value)).isSome

instance (headers : HttpHeaderMap) : Decidable (SaysChunked headers) :=
  inferInstanceAs (Decidable (_ = true))

theorem saysChunked_of_finds (finds : FindsChunked headers) : SaysChunked headers := by
  unfold SaysChunked FindsChunked at *
  cases found : headers.lookup NameCode.TransferEncoding.codeToName with
  | none => simp [found] at finds
  | some header =>
    simp only [found, Option.any_some, Option.isSome_iff_ne_none, ne_eq, find_none_iff,
      not_not] at finds ⊢
    exact finds.map tolower

theorem saysChunked_length (named : header.name = NameCode.ContentLength.codeToName) :
    SaysChunked (insertOrAssign header.name header headers) ↔ SaysChunked headers := by
  rw [SaysChunked, lookup_insertOrAssign, named]
  rfl

theorem saysChunked_coding : SaysChunked (insertOrAssign NameCode.TransferEncoding.codeToName
    (.ofCode .TransferEncoding (ascii "chunked")) headers) := by
  rw [SaysChunked, lookup_insertOrAssign, if_pos BEq.rfl]
  decide

/-- The header block announces one mode and the bytes behind it carry the content in that mode. -/
def Announces (headers : HttpHeaderMap) (content after : Bytes) : Prop :=
  ¬(HasLength headers ∧ SaysChunked headers) ∧
  (SaysChunked headers → ∃ coding : ChunkedBody, coding.encode = after ∧ coding.data = content) ∧
  (¬SaysChunked headers → after = content)

theorem announces_plain (plain : ¬SaysChunked headers) : Announces headers content content :=
  ⟨fun both => plain both.2, fun chunked => absurd chunked plain, fun _ => rfl⟩

theorem announces_chunked (uncounted : ¬HasLength headers) (chunked : SaysChunked headers)
    (coding : ChunkedBody) : Announces headers coding.data coding.encode :=
  ⟨fun both => uncounted both.1, fun _ => ⟨coding, rfl, rfl⟩, fun plain => absurd chunked plain⟩

end HttpHeaderMap

/-- The size lines come on top of the data. -/
theorem ChunkedBody.encode_ne_data (coding : ChunkedBody) : coding.encode ≠ coding.data := by
  have grows (chunks : List Chunk) :
      (chunks.flatMap Chunk.data).length ≤ (chunks.flatMap Chunk.encode).length := by
    induction chunks with
    | nil => exact Nat.le_refl _
    | cons chunk chunks ih =>
      simp only [flatMap_cons, length_append, Chunk.encode]
      omega
  intro same
  have longer := congrArg length same
  have least := grows coding.chunks
  simp only [encode, data, length_append, crlf, length_cons] at longer
  omega

namespace MessageCall
variable [MessageKind M]

/-- The caller has announced chunked coding, and a length comes with it (from the caller, or from an
`end` that finds nothing written), or the coding stays unseen in a message that ends with the
connection. -/
def Clash (start : M × List Bytes) : Prop :=
  (headers start.1).SaysChunked ∧
    ((headers start.1).HasLength ∨ start.2 = [] ∨
      ¬(headers start.1).FindsChunked ∧ (untilClose start.1).isSome)

/-- The writer that the `end` leaves. -/
def lateWriter (last : Ending) (start : M × List Bytes) : Option BodyWriter :=
  if start.2 = [] then if last.bytes = [] then none else some .contentLength
  else some (.create (mode start.1))

/-- None of the calls after the `end` sends anything: neither data, which a write drops only where
it throws, nor another zero chunk. -/
def Quiet : Option BodyWriter → HttpHeaderMap → List (AnyCall M) → Prop
  | _, _, [] => True
  | writer, headers, .early (.setHeader header) :: later =>
    Quiet writer (insertOrAssign header.name header headers) later
  | writer, headers, .early (.edit _ _) :: later => Quiet writer headers later
  | writer, headers, .early (.write data) :: later =>
    if writer = none ∧ ¬headers.Converts then Quiet none headers later
    else data = [] ∧ Quiet (writer.or (some .contentLength)) headers later
  | writer, headers, .ending last :: later =>
    last.bytes = [] ∧ writer ≠ some .chunked ∧ Quiet writer headers later

end MessageCall

namespace MessageKind
variable [MessageKind M] {data : M}

/-- What a write chooses agrees with what the header block then announces. -/
theorem announce_agrees (passes : (create (mode data)).Passes content bytes) :
    (headers (announce data)).Announces content
        (bytes ++ wire (create (mode data)).finish) ↔
      ¬((headers data).SaysChunked ∧
        ((headers data).HasLength ∨ ¬(headers data).FindsChunked ∧ (untilClose data).isSome)) := by
  have body := passes.body
  by_cases counted : (headers data).HasLength
  · have kept : announce data = data := if_pos (.inl counted)
    have raw := (body.resolve_left (by simp [mode, counted, create])).2
    rw [kept, raw]
    refine ⟨fun agrees clash => agrees.1 ⟨counted, clash.1⟩, fun sound => ?_⟩
    exact announces_plain fun chunked => sound ⟨chunked, .inl counted⟩
  by_cases finds : (headers data).FindsChunked
  · have kept : announce data = data := if_pos (.inr finds)
    obtain ⟨coding, coded, whole⟩ :=
      (body.resolve_right (by simp [mode, counted, finds, create])).2
    rw [kept, ← coded, ← whole]
    refine iff_of_true (announces_chunked counted
      (saysChunked_of_finds finds) coding) ?_
    exact fun clash => clash.2.elim counted fun unseen => unseen.1 finds
  cases closes : untilClose data with
  | some closing =>
    have kept : headers (announce data) = headers data := by
      rw [announce, if_neg (not_or.mpr ⟨counted, finds⟩), closes]
      exact headers_untilClose _ _ closes
    have raw := (body.resolve_left (by simp [mode, counted, finds, closes, create])).2
    rw [kept, raw]
    refine ⟨fun agrees clash => ?_, fun sound => ?_⟩
    · obtain ⟨coding, coded, whole⟩ := agrees.2.1 clash.1
      exact coding.encode_ne_data (coded.trans whole.symm)
    · exact announces_plain fun chunked => sound ⟨chunked, .inr ⟨finds, rfl⟩⟩
  | none =>
    have set : headers (announce data) = insertOrAssign NameCode.TransferEncoding.codeToName
        (.ofCode .TransferEncoding (ascii "chunked")) (headers data) := by
      rw [announce, if_neg (not_or.mpr ⟨counted, finds⟩), closes]
      exact headers_setHeaders _ _
    obtain ⟨coding, coded, whole⟩ :=
      (body.resolve_right (by simp [mode, counted, finds, closes, create])).2
    rw [set, ← coded, ← whole]
    refine iff_of_true (announces_chunked ?_ saysChunked_coding coding) ?_
    · intro length
      exact ((hasLength_insert _ (.ofCode .TransferEncoding _)).mp length).elim
        (by decide) counted
    · exact fun clash => clash.2.elim counted fun unseen => absurd unseen.2 (by simp)

end MessageKind

namespace Outgoing
open MessageCall (atHead Clash Quiet lateWriter)
variable [MessageKind M] (env : Env) {o : Outgoing M} {last : Ending} {writer : BodyWriter}
  {bytes : Bytes}

theorem headers_setLength (n : Nat) (o : Outgoing M) : (o.setLength n).headers.HasLength ∧
    ((o.setLength n).headers.SaysChunked ↔ o.headers.SaysChunked) := by
  rw [setLength, headers_setHeader]
  exact ⟨(hasLength_insert _ _).mpr (.inl rfl), saysChunked_length rfl⟩

theorem headers_sized (last : Ending) (o : Outgoing M) : (o.sized last).headers.HasLength ∧
    ((o.sized last).headers.SaysChunked ↔ o.headers.SaysChunked) := by
  unfold sized measured
  split
  · split
    case isTrue counted => exact ⟨counted, Iff.rfl⟩
    case isFalse => exact headers_setLength _ _
  · exact headers_setLength _ (o.counted last.bytes)

/-- The header block and the body of one message agree. -/
theorem opened_announces (calls : List (MessageCall M)) (last : Ending) (length : UInt64)
    (o : Outgoing M) (passes : (writerAt (atHead o.ignoreBody calls o.data)).Passes content bytes) :
    (o.opened calls last length).headers.Announces content
        (bytes ++ wire (writerAt (atHead o.ignoreBody calls o.data)).finish) ↔
      ¬Clash (atHead o.ignoreBody calls o.data) := by
  unfold opened writerAt Clash at *
  generalize atHead o.ignoreBody calls o.data = start at passes
  by_cases ends : start.2 = []
  · simp only [ends, if_true, true_or, or_true, and_true] at passes ⊢
    obtain ⟨counted, chunked⟩ := headers_sized last
      { o with data := start.1, bodyLength := length }
    have raw := (passes.body.resolve_left (by simp)).2
    rw [raw]
    refine ⟨fun agrees both => agrees.1 ⟨counted, chunked.mpr both⟩, fun plain => ?_⟩
    exact announces_plain (mt chunked.mp plain)
  · simp only [ends, if_false, false_or] at passes ⊢
    exact announce_agrees passes

section Later
variable {headers : HttpHeaderMap} {later : List (AnyCall M)}

/-- An `end` has left the message, with a length where there is no writer. -/
structure Ended (writer : Option BodyWriter) (headers : HttpHeaderMap) (o : Outgoing M) : Prop where
  sent : o.headersSent = true
  chosen : o.bodyWriter = writer
  body : o.ignoreBody = false
  length : writer = none → o.headers.HasLength ∧ (o.headers.Converts ↔ headers.Converts)

theorem wire_write_eq_nil {bytes : Bytes} (writer : BodyWriter) :
    wire (writer.write env bytes) = [] ↔ bytes = [] := by
  cases writer with
  | chunked =>
    rw [BodyWriter.write]
    split
    · simp [wire, *]
    · simp [wire, crlf, *]
  | contentLength | untilClose => simp [BodyWriter.write, wire]

theorem wire_finish_eq_nil (writer : BodyWriter) : wire writer.finish = [] ↔ writer ≠ .chunked := by
  cases writer <;> simp [BodyWriter.finish, wire, crlf]

theorem converts_insert {a b : HttpHeaderMap} (same : a.Converts ↔ b.Converts) (header : HttpHeader) :
    Converts (insertOrAssign header.name header a) ↔
      Converts (insertOrAssign header.name header b) := by
  simp only [Converts, lookup_insertOrAssign]
  split
  · rfl
  · exact same

theorem decided_of_length (counted : o.headers.HasLength) :
    o.decided = o.useWriter .contentLength := by
  simp only [decided, announce, mode, counted, true_or, if_true]

theorem write_ended {writer : Option BodyWriter} (ended : Ended writer headers o) (data : Bytes) :
    let next := o.react env (.early (.write data))
    if writer = none ∧ ¬headers.Converts then next.2 = [] ∧ Ended none headers next.1
    else (wire next.2 = [] ↔ data = []) ∧
      Ended (writer.or (some .contentLength)) headers next.1 := by
  obtain ⟨sent, chosen, body, length⟩ := ended
  cases writer with
  | some writer =>
    have written := write_streaming env ⟨sent, chosen, body⟩ data
    rw [if_neg (by simp)]
    simp only [react, call, written, Except.toOption, Option.getD_some]
    exact ⟨wire_write_eq_nil env writer, sent, chosen, body, by simp⟩
  | none =>
    split
    case isTrue waits =>
      obtain ⟨done, written, silent, -⟩ := write_waits env chosen data
        fun both => waits.2 ((length rfl).2.mp both.2)
      simp only [react, call, written, silent]
      exact ⟨trivial, sent, chosen, body, length⟩
    case isFalse goes =>
      let o' := (o.counted data).useWriter .contentLength
      have decided : (o.counted data).decideTransferMode none = .ok o' := by
        rw [show o' = _ from (decided_of_length (o := o.counted data) (length rfl).1).symm]
        exact decideTransferMode_ok (o := o.counted data) chosen
          ((length rfl).2.mpr (by simpa using goes))
      have sent' : o'.headersSent = true := sent
      have reads : ¬(o.counted data).ignoreBody = true := by simp [Outgoing.counted, body]
      have written : o.write env data = (o', .ok (contentLength.write env data)) := by
        rw [write, if_neg reads, decided]
        simp [writeHeaders, sent']
        rfl
      simp only [react, call, written, Except.toOption, Option.getD_some]
      exact ⟨wire_write_eq_nil env .contentLength, sent, rfl, body, by simp⟩

theorem ending_ended {writer : Option BodyWriter} (ended : Ended writer headers o) (last : Ending) :
    (wire (o.ending env last).2 = [] ↔ last.bytes = [] ∧ writer ≠ some .chunked) ∧
      (last.bytes = [] → Ended writer headers (o.ending env last).1) := by
  obtain ⟨sent, chosen, body, length⟩ := ended
  cases writer with
  | some writer =>
    obtain ⟨same, ends⟩ := ending_streaming env ⟨sent, chosen, body⟩ last
    rw [same, ends, append_eq_nil_iff, wire_write_eq_nil, wire_finish_eq_nil, ne_eq, ne_eq,
      Option.some.injEq]
    exact ⟨Iff.rfl, fun _ => ⟨sent, chosen, body, nofun⟩⟩
  | none =>
    rw [ending_eq]
    by_cases empty : last.bytes = []
    · have ends : o.finishWith env last.bytes = (o, [.finish]) := by
        rw [finishWith, if_pos (.inr empty), empty, counted_nil]
        simp [finish, writeHeaders, sent, chosen]
      rw [ends]
      exact ⟨by simp [wire, empty], fun _ => ⟨sent, chosen, body, length⟩⟩
    · refine ⟨iff_of_false ?_ fun both => empty both.1, fun nothing => absurd nothing empty⟩
      have goes : ¬((o.counted last.bytes).ignoreBody ∨ last.bytes = []) := by
        simp [Outgoing.counted, body, empty]
      have chosen' : (o.counted last.bytes).hinted last.bytes.length =
          ((o.counted last.bytes).setLength last.bytes.length).useWriter .contentLength :=
        if_neg (by simp [Outgoing.counted, chosen])
      rw [finishWith, if_neg goes, chosen', finishBody, if_neg (by
        simp [useWriter, setLength, setHeader, Outgoing.counted, sent])]
      simp [writeHeaders, useWriter, setLength, setHeader, Outgoing.counted, sent, BodyWriter.create,
        BodyWriter.write, BodyWriter.finish, wire, empty]

/-- The calls after the `end` send nothing exactly if each of them sends nothing. -/
theorem quiet_iff {writer : Option BodyWriter} (ended : Ended writer headers o) :
    wire (o.events env later) = [] ↔ Quiet writer headers later := by
  induction later generalizing o writer headers with
  | nil => exact iff_of_true rfl trivial
  | cons call later ih =>
    rw [events, wire_append, append_eq_nil_iff]
    cases call with
    | ending last =>
      obtain ⟨silent, next⟩ := ending_ended env ended last
      rw [Quiet, ← and_assoc, react, silent]
      exact and_congr_right fun quiet => ih (next quiet.1)
    | early call =>
      cases call with
      | setHeader header =>
        rw [Quiet]
        refine (and_iff_right rfl).trans (ih { ended with length := fun none => ?_ })
        obtain ⟨counted, converts⟩ := ended.length none
        rw [react, Outgoing.call, headers_setHeader]
        exact ⟨(hasLength_insert _ _).mpr (.inr counted), converts_insert converts header⟩
      | edit change keeps =>
        rw [Quiet]
        refine (and_iff_right rfl).trans (ih { ended with length := fun none => ?_ })
        rw [show (Outgoing.react env o (.early (.edit change keeps))).1.headers = o.headers from
          keeps o.data]
        exact ended.length none
      | write data =>
        have next := write_ended env ended data
        rw [Quiet]
        split at next
        case isTrue waits => rw [if_pos waits, next.1, ih next.2]; exact and_iff_right rfl
        case isFalse goes => rw [if_neg goes, next.1, ih next.2]

theorem events_ignoring (sent : o.headersSent = true) (undecided : o.bodyWriter = none)
    (ignores : o.ignoreBody = true) : wire (o.events env later) = [] := by
  induction later generalizing o with
  | nil => rfl
  | cons call later ih =>
    rw [events, wire_append, append_eq_nil_iff]
    cases call with
    | ending last =>
      have ends : o.ending env last = (o.counted last.bytes, [.finish]) := by
        rw [ending_eq, finishWith, if_pos (.inl ignores)]
        simp [finish, writeHeaders, counted, sent, undecided]
      rw [react, ends]
      exact ⟨rfl, ih sent undecided ignores⟩
    | early call =>
      cases call with
      | setHeader | edit => exact ⟨rfl, ih sent undecided ignores⟩
      | write data =>
        have skips : o.write env data = (o.counted data, .ok []) := if_pos ignores
        rw [react, Outgoing.call, skips]
        exact ⟨rfl, ih sent undecided ignores⟩

theorem atHead_ignoring (calls : List (MessageCall M)) (data : M) :
    (atHead true calls data).2 = [] := by
  induction calls generalizing data with
  | nil => rfl
  | cons call calls ih => cases call <;> simp [atHead, ih]

theorem converts_setLength (small : n < 2 ^ 64) (o : Outgoing M) :
    (o.setLength n).headers.Converts := by
  have digits := Numeral.print_digits (by decide : 1 < 10) (by decide) n
  have value := Numeral.value_print (by decide : 1 < 10) (by decide) n
  have read : Numeral.stoul 10 (Numeral.print 10 n) = .ok n := by
    have parsed := Numeral.stoul_digits digits (t := []) nofun (value.symm ▸ small)
    rwa [append_nil, value] at parsed
  rw [setLength, headers_setHeader, Converts, lookup_insertOrAssign]
  simp [HttpHeader.ofCode, read, Except.toBool]

theorem ended_sized (undecided : o.bodyWriter = none) (body : o.ignoreBody = false)
    (last : Ending) : Ended (if last.bytes = [] then none else some .contentLength) o.headers
      { o.sized last with headersSent := true } := by
  by_cases empty : last.bytes = []
  · have built : o.sized last = o.measured := by simp [sized, empty, counted_nil]
    rw [if_pos empty, built]
    unfold measured
    split
    case isTrue counted => exact ⟨rfl, undecided, body, fun _ => ⟨counted, Iff.rfl⟩⟩
    case isFalse uncounted =>
      refine ⟨rfl, undecided, body, fun _ => ⟨(headers_setLength _ o).1, iff_of_true ?_ ?_⟩⟩
      · exact converts_setLength o.bodyLength.toNat_lt o
      · have free : o.headers.lookup NameCode.ContentLength.codeToName = none :=
          Option.not_isSome_iff_eq_none.mp uncounted
        rw [Converts, free]
        rfl
  · have built : o.sized last =
        ((o.counted last.bytes).setLength last.bytes.length).useWriter .contentLength :=
      if_neg (by simp [body, empty])
    rw [if_neg empty, built]
    exact ⟨rfl, rfl, body, by simp⟩

theorem later_eq_nil_iff (opening : Opening o) (calls : List (MessageCall M)) (last : Ending)
    (later : List (AnyCall M)) :
    let start := atHead o.ignoreBody calls o.data
    wire ((o.after env (script calls last)).events env later) = [] ↔
      o.ignoreBody = true ∨ Quiet (lateWriter last start) (MessageKind.headers start.1) later := by
  intro start
  obtain ⟨bytes, ⟨length, built⟩, -, -, final⟩ := sent_opening env opening calls last
  let o' : Outgoing M := { o with data := start.1, bodyLength := length }
  by_cases ends : start.2 = []
  · have state : o.after env (script calls last) = { o'.sized last with headersSent := true } := by
      rw [if_pos ends] at final
      rw [final, built, opened, if_pos ends]
    rw [state]
    cases body : o.ignoreBody with
    | true =>
      have measured : o'.sized last = (o'.counted last.bytes).measured := if_pos (.inl body)
      have opening' : Opening (o'.counted last.bytes) := { opening with }
      refine iff_of_true (events_ignoring env rfl ?_ ?_) (.inl rfl)
      · rw [measured]
        exact opening'.measured.undecided
      · rw [measured, Outgoing.measured]
        split <;> exact body
    | false =>
      have ended := ended_sized (o := o') opening.undecided body last
      rw [quiet_iff env ended, lateWriter, if_pos ends]
      exact (or_iff_right Bool.false_ne_true).symm
  · rw [if_neg ends] at final
    have ended : Ended (lateWriter last start) (MessageKind.headers start.1)
        (o.after env (script calls last)) := by
      rw [lateWriter, if_neg ends]
      have writer : writerAt start = .create (mode start.1) := if_neg ends
      exact ⟨final.sent, final.chosen.trans (congrArg some writer), final.body, by simp⟩
    have body : o.ignoreBody = false := by
      by_contra ignores
      exact ends (by simp only [start, Bool.eq_true_of_not_eq_false ignores, atHead_ignoring])
    rw [quiet_iff env ended, body]
    exact (or_iff_right Bool.false_ne_true).symm

end Later

end Outgoing

end Nitrocoro.Http
