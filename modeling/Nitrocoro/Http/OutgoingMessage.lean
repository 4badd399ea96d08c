import Nitrocoro.Http.Outgoing
import Nitrocoro.Http.ParserProofs
import Nitrocoro.Http.Wire

/-! What the calls on an outgoing message send. The header block goes out with the first write that
gets past the conversion of a length, or with the `end`; the data goes out behind it, in the coding
of the writer that was chosen with the block. -/
namespace Nitrocoro.Http
open Text List OrderedMap MessageKind MessageCall
open Numeral (print print_length_le_iff value_print print_digits)

namespace BodyWriter
variable {writer : BodyWriter} {env : Env}

theorem sizeText_small (small : n < 2 ^ 52) : sizeText env n = print 16 n ++ crlf := by
  have digits := (print_length_le_iff (by decide : 1 < 16) 12 n).mpr small
  have short : (print 16 n ++ crlf).length < 16 := by
    simp only [length_append, crlf, length_cons, length_nil]
    omega
  exact if_pos short

def sizeLine (n : Nat) (small : n < 2 ^ 52) : SizeLine where
  digits := print 16 n
  extension := []
  hex := print_digits (by decide) (by decide) n
  opens := no_extension
  single := by
    rw [append_nil]
    apply oneLine_of_not_mem
    intro mem
    have digits := (print_digits (by decide : 1 < 16) (by decide) n).digits
    exact absurd (digits _ mem) (by decide)
  short := by
    have digits := (print_length_le_iff (by decide : 1 < 16) 12 n).mpr small
    exact Nat.le_trans digits (by decide)

theorem size_sizeLine (small : n < 2 ^ 52) : (sizeLine n small).size = n :=
  value_print (by decide) (by decide) n

theorem write_chunked (env : Env) (small : data.length < 2 ^ 52) :
    ∃ chunks : List Chunk, wire (write env data .chunked) = chunks.flatMap Chunk.encode ∧
      chunks.flatMap Chunk.data = data := by
  by_cases empty : data = []
  · exact ⟨[], by simp [write, wire, empty], empty.symm⟩
  let chunk : Chunk :=
    { sizeLine := sizeLine data.length small
      data := data
      nonempty := empty
      counted := size_sizeLine small
      fits := Nat.lt_trans small (by decide) }
  refine ⟨[chunk], ?_, by simp [chunk]⟩
  simp [write, wire, empty, chunk, Chunk.encode, sizeLine, SizeLine.line, sizeText_small small]

def coding (chunks : List Chunk) : ChunkedBody where
  chunks := chunks
  last := sizeLine 0 (by decide)
  trailers := []
  zero := size_sizeLine _

theorem encode_coding (chunks : List Chunk) : (coding chunks).encode =
    chunks.flatMap Chunk.encode ++ wire (finish .chunked) := by
  simp [ChunkedBody.encode, ChunkedBody.encodeTrailers, coding, sizeLine, SizeLine.line, finish, wire,
    print, ascii]

/-- What a writer makes of data that is written piece by piece, before it ends the body. -/
def Passes (writer : BodyWriter) (data bytes : Bytes) : Prop :=
  match writer with
  | .chunked => ∃ chunks : List Chunk,
      bytes = chunks.flatMap Chunk.encode ∧ chunks.flatMap Chunk.data = data
  | _ => bytes = data

theorem Passes.nil (writer : BodyWriter) : writer.Passes [] [] := by
  cases writer with
  | chunked => exact ⟨[], rfl, rfl⟩
  | _ => rfl

theorem Passes.append (first : writer.Passes a x) (second : writer.Passes b y) :
    writer.Passes (a ++ b) (x ++ y) := by
  cases writer with
  | chunked =>
    obtain ⟨chunks, sent, whole⟩ := first
    obtain ⟨more, sent', whole'⟩ := second
    refine ⟨chunks ++ more, ?_, ?_⟩
    · rw [flatMap_append, sent, sent']
    · rw [flatMap_append, whole, whole']
  | contentLength | untilClose => exact congr_arg₂ (· ++ ·) first second

theorem wire_write_nil (env : Env) (writer : BodyWriter) : wire (writer.write env []) = [] := by
  cases writer <;> rfl

/-- The size of a chunk has room in `sizeBuf`. -/
def Fits (writer : BodyWriter) (data : Bytes) : Prop := writer = .chunked → data.length < 2 ^ 52

theorem passes_write (env : Env) (fits : Fits writer data) :
    writer.Passes data (wire (writer.write env data)) := by
  cases writer with
  | chunked => exact write_chunked env (fits rfl)
  | _ => exact append_nil data

/-- What is behind the header block once the writer has ended the body. -/
theorem Passes.body (passes : writer.Passes data bytes) :
    writer = .chunked ∧ (∃ coding : ChunkedBody,
      coding.encode = bytes ++ wire writer.finish ∧ coding.data = data) ∨
    writer ≠ .chunked ∧ bytes ++ wire writer.finish = data := by
  cases writer with
  | chunked =>
    obtain ⟨chunks, sent, whole⟩ := passes
    exact .inl ⟨rfl, coding chunks, by rw [encode_coding, sent], whole⟩
  | contentLength | untilClose => exact .inr ⟨nofun, (append_nil bytes).trans passes⟩

end BodyWriter

def Ending.bytes : Ending → Bytes
  | .plain => []
  | .data bytes => bytes

namespace HttpHeaderMap

/-- `decideTransferMode` gets past the conversion of a length that the caller set. -/
def Converts (headers : HttpHeaderMap) : Prop :=
  (headers.lookup NameCode.ContentLength.codeToName).all fun header =>
    (Numeral.stoul 10 header.value).isOk

instance (headers : HttpHeaderMap) : Decidable (Converts headers) :=
  inferInstanceAs (Decidable (_ = true))

theorem hasLength_of_lookup {headers : HttpHeaderMap}
    (held : headers.lookup NameCode.ContentLength.codeToName = some header) : HasLength headers := by
  rw [HasLength, held]
  rfl

theorem hasLength_insert (headers : HttpHeaderMap) (header : HttpHeader) :
    HasLength (insertOrAssign header.name header headers) ↔
      header.name = NameCode.ContentLength.codeToName ∨ HasLength headers := by
  rw [HasLength, lookup_insertOrAssign]
  by_cases same : header.name = NameCode.ContentLength.codeToName
  · simp [same]
  · simp [same, Ne.symm same, HasLength]

end HttpHeaderMap

namespace MessageCall
variable [MessageKind M]

def bytes : MessageCall M → Bytes
  | .write data => data
  | _ => []

/-- The call leaves the length to the stream. -/
def KeepsLength : MessageCall M → Prop
  | .setHeader header => header.name ≠ NameCode.ContentLength.codeToName
  | _ => True

/-- What is set when the header block is built, and the data of the calls from there on: from the
first write that does not throw. It is empty where the `end` builds the block. -/
def atHead (ignoreBody : Bool) : List (MessageCall M) → M → M × List Bytes
  | [], data => (data, [])
  | .setHeader header :: calls, data => atHead ignoreBody calls <|
    setHeaders (insertOrAssign header.name header (headers data)) data
  | .edit change _ :: calls, data => atHead ignoreBody calls (change data)
  | .write first :: calls, data =>
    if ignoreBody = false ∧ (headers data).Converts then
      (data, first :: calls.map bytes)
    else atHead ignoreBody calls data

end MessageCall

namespace MessageKind
variable [MessageKind M]

/-- The mode that `decideTransferMode` chooses without a hint. -/
def mode (data : M) : TransferMode :=
  if (headers data).HasLength then .contentLength
  else if (headers data).FindsChunked then .chunked
  else if (untilClose data).isSome then .untilClose
  else .chunked

/-- The data that it then leaves for the header block. -/
def announce (data : M) : M :=
  if (headers data).HasLength ∨ (headers data).FindsChunked then data
  else (untilClose data).getD <| setHeaders (insertOrAssign NameCode.TransferEncoding.codeToName
    (.ofCode .TransferEncoding (ascii "chunked")) (headers data)) data

end MessageKind

namespace Outgoing
open BodyWriter (passes_write)
variable {o : Outgoing M} {writer : BodyWriter}

theorem counted_nil (o : Outgoing M) : o.counted [] = o := by
  simp [counted]

/-- The header block is out, and a writer takes the data. -/
structure Streaming (writer : BodyWriter) (o : Outgoing M) : Prop where
  sent : o.headersSent = true
  chosen : o.bodyWriter = some writer
  body : o.ignoreBody = false

theorem Streaming.counted (streaming : Streaming writer o) (data : Bytes) :
    Streaming writer (o.counted data) :=
  { streaming with }

/-- Nothing is out or decided yet. -/
structure Opening (o : Outgoing M) : Prop where
  unsent : o.headersSent = false
  undecided : o.bodyWriter = none

variable [MessageKind M] (env : Env) {last : Ending} {data : Bytes} {calls : List (MessageCall M)}

/-- `end()` is `end(data)` for no data. -/
theorem ending_eq (last : Ending) (o : Outgoing M) :
    o.ending env last = o.finishWith env last.bytes := by
  cases last with
  | plain =>
    rw [finishWith, if_pos (.inr rfl), Ending.bytes, counted_nil]
    rfl
  | data data => rfl

/-- The state after some calls. -/
def after (run : List (AnyCall M)) (o : Outgoing M) : Outgoing M :=
  run.foldl (fun o call => (o.react env call).1) o

theorem events_append (run more : List (AnyCall M)) (o : Outgoing M) :
    o.events env (run ++ more) = o.events env run ++ (o.after env run).events env more := by
  induction run generalizing o with
  | nil => rfl
  | cons call run ih => rw [cons_append, events, events, ih, append_assoc]; rfl

theorem events_of_respond {sent : List Event} (responded : o.respond env last calls = .ok sent) :
    o.events env (script calls last) = sent := by
  induction calls generalizing o sent with
  | nil =>
    injection responded with ended
    exact (append_nil _).trans ended
  | cons call calls ih =>
    cases called : (o.call env call).2 with
    | error e => simp [respond, called, bind, Except.bind] at responded
    | ok first =>
      cases rest : respond env last calls (o.call env call).1 with
      | error e => simp [respond, called, rest, bind, Except.bind] at responded
      | ok more =>
        simp only [respond, called, rest, bind, Except.bind, Except.ok.injEq] at responded
        rw [← responded, ← ih rest]
        simp [script, events, react, called, Except.toOption]

section Streaming
variable (streaming : Streaming writer o)
include streaming

theorem write_streaming (data : Bytes) :
    o.write env data = (o.counted data, .ok (writer.write env data)) := by
  obtain ⟨sent, chosen, body⟩ := streaming
  simp [write, decideTransferMode, writeHeaders, counted, sent, chosen, body]

theorem finish_streaming : o.finish env = (o, writer.finish ++ [.finish]) := by
  simp [finish, writeHeaders, streaming.sent, streaming.chosen]

theorem ending_streaming (last : Ending) :
    (o.ending env last).1 = o.counted last.bytes ∧ wire (o.ending env last).2 =
      wire (writer.write env last.bytes) ++ wire writer.finish := by
  have counting := streaming.counted last.bytes
  rw [ending_eq, finishWith]
  by_cases empty : last.bytes = []
  · rw [if_pos (.inr empty), finish_streaming env counting]
    refine ⟨rfl, ?_⟩
    rw [empty, BodyWriter.wire_write_nil, wire_append, nil_append]
    exact append_nil _
  · obtain ⟨sent, chosen, body⟩ := id counting
    have goes : ¬((o.counted last.bytes).ignoreBody ∨ last.bytes = []) := by simp [body, empty]
    have writes : (o.counted last.bytes).hinted last.bytes.length = o.counted last.bytes :=
      if_pos (by simp [chosen])
    rw [if_neg goes, writes, finishBody, if_neg (by simp [sent])]
    simp only [writeHeaders, sent, if_true, chosen, Option.elim_some, nil_append]
    refine ⟨trivial, ?_⟩
    rw [wire_append, wire_append]
    exact append_nil _

/-- From the header block on the calls send all that is written, in the coding of the writer. -/
theorem events_streaming (calls : List (MessageCall M)) (last : Ending) :
    Streaming writer (o.after env (script calls last)) ∧
    ∃ bytes, wire (o.events env (script calls last)) = bytes ++ wire writer.finish ∧
      ((∀ call ∈ calls, writer.Fits call.bytes) → writer.Fits last.bytes →
        writer.Passes (calls.flatMap MessageCall.bytes ++ last.bytes) bytes) := by
  induction calls generalizing o with
  | nil =>
    obtain ⟨same, sent⟩ := ending_streaming env streaming last
    refine ⟨?_, _, ?_, fun _ => passes_write env⟩
    · exact (show Streaming writer (o.ending env last).1 from same ▸ streaming.counted _)
    · exact (congrArg wire (append_nil _)).trans sent
  | cons call calls ih =>
    obtain ⟨sent, chosen, body⟩ := streaming
    simp only [forall_mem_cons, and_imp]
    cases call with
    | setHeader header =>
      obtain ⟨streaming', bytes, more, passes⟩ :=
        ih (o := o.setHeader header) ⟨sent, chosen, body⟩
      exact ⟨streaming', bytes, more, fun _ => passes⟩
    | edit change keeps =>
      obtain ⟨streaming', bytes, more, passes⟩ :=
        ih (o := { o with data := change o.data }) ⟨sent, chosen, body⟩
      exact ⟨streaming', bytes, more, fun _ => passes⟩
    | write data =>
      have written := write_streaming env ⟨sent, chosen, body⟩ data
      obtain ⟨streaming', bytes, more, passes⟩ :=
        ih (o := o.counted data) ⟨sent, chosen, body⟩
      have next : o.react env (.early (.write data)) =
          (o.counted data, writer.write env data) := by
        simp [react, call, written, Except.toOption]
      refine ⟨?_, wire (writer.write env data) ++ bytes, ?_, ?_⟩
      · simpa [script, after, next] using streaming'
      · simp only [script, map_cons, cons_append, events, next, wire_append]
        rw [append_assoc, ← more]
        rfl
      · intro fits rest short
        rw [flatMap_cons, append_assoc]
        exact (passes_write env fits).append (passes rest short)

end Streaming

/-- What `decideTransferMode` leaves without a hint. -/
def decided (o : Outgoing M) : Outgoing M :=
  { o with data := announce o.data }.useWriter (mode o.data)

theorem chooseCoding_eq (uncounted : ¬o.headers.HasLength) : o.chooseCoding = o.decided := by
  unfold chooseCoding decided announce mode
  by_cases chunked : o.headers.FindsChunked
  · simp only [chunked, uncounted, or_true, if_true, if_false]
  · simp only [chunked, uncounted, or_self, if_false]
    cases untilClose o.data <;> rfl

theorem decideTransferMode_ok (undecided : o.bodyWriter = none) (converts : o.headers.Converts) :
    o.decideTransferMode none = .ok o.decided := by
  unfold HttpHeaderMap.Converts at converts
  cases found : o.headers.lookup NameCode.ContentLength.codeToName with
  | none =>
    have uncounted : ¬o.headers.HasLength := by simp [HttpHeaderMap.HasLength, found]
    simp [decideTransferMode, undecided, found, chooseCoding_eq uncounted]
  | some header =>
    have counted : o.headers.HasLength := HttpHeaderMap.hasLength_of_lookup found
    cases converted : Numeral.stoul 10 header.value with
    | error e => simp [found, converted, Except.toBool] at converts
    | ok n =>
      simp only [decideTransferMode, undecided, Option.isSome_none, Bool.false_eq_true,
        if_false, found, converted, decided, announce, mode, counted,
        true_or, if_true]
      rfl

theorem decideTransferMode_error (undecided : o.bodyWriter = none)
    (fails : ¬o.headers.Converts) : ∃ e, o.decideTransferMode none = .error e := by
  unfold HttpHeaderMap.Converts at fails
  cases found : o.headers.lookup NameCode.ContentLength.codeToName with
  | none => exact absurd (by simp [found]) fails
  | some header =>
    cases converted : Numeral.stoul 10 header.value with
    | ok n => exact absurd (by simp [found, converted, Except.toBool]) fails
    | error e =>
      refine ⟨.ofNumeral e, ?_⟩
      simp only [decideTransferMode, undecided, Option.isSome_none, Bool.false_eq_true, if_false,
        found, converted]

theorem headers_setHeader (header : HttpHeader) (o : Outgoing M) :
    (o.setHeader header).headers = insertOrAssign header.name header o.headers :=
  headers_setHeaders _ _

theorem bodyWriter_writeHeaders (o : Outgoing M) :
    (o.writeHeaders env).1.bodyWriter = o.bodyWriter := by
  unfold writeHeaders
  split <;> rfl

/-- No length of the caller's can make a write throw. -/
def Fluent (o : Outgoing M) : Prop := o.bodyWriter = none → ¬o.headers.HasLength

theorem call_fluent {call : MessageCall M} (fluent : o.Fluent) (keeps : call.KeepsLength) :
    (o.call env call).1.Fluent ∧ ∃ events, (o.call env call).2 = .ok events := by
  cases call with
  | setHeader header =>
    refine ⟨fun undecided counted => ?_, [], rfl⟩
    rw [Outgoing.call, headers_setHeader, HttpHeaderMap.hasLength_insert] at counted
    exact counted.elim keeps (fluent undecided)
  | edit change same =>
    refine ⟨fun undecided counted => fluent undecided ?_, [], rfl⟩
    have kept : MessageKind.headers (change o.data) = o.headers := same o.data
    exact kept ▸ counted
  | write data =>
    simp only [Outgoing.call, write]
    split
    · exact ⟨fluent, [], rfl⟩
    have chosen : ∃ o', (o.counted data).decideTransferMode none = .ok o' ∧
        o'.bodyWriter ≠ none := by
      cases undecided : o.bodyWriter with
      | none =>
        have free := Option.not_isSome_iff_eq_none.mp (fluent undecided)
        exact ⟨_, decideTransferMode_ok undecided (by simp [HttpHeaderMap.Converts, counted, free]),
          Option.some_ne_none _⟩
      | some writer =>
        exact ⟨o.counted data, by simp [decideTransferMode, counted, undecided],
          by simp [counted, undecided]⟩
    obtain ⟨o', decided, chosen⟩ := chosen
    rw [decided]
    refine ⟨fun undecided => absurd ?_ chosen, _, rfl⟩
    exact (bodyWriter_writeHeaders env o').symm.trans undecided

theorem respond_fluent (fluent : o.Fluent) (keeps : ∀ call ∈ calls, call.KeepsLength) :
    o.respond env last calls = .ok (o.events env (script calls last)) := by
  suffices returns : ∃ sent, o.respond env last calls = .ok sent by
    obtain ⟨sent, responded⟩ := returns
    rw [responded, events_of_respond env responded]
  induction calls generalizing o with
  | nil => exact ⟨_, rfl⟩
  | cons call calls ih =>
    obtain ⟨keep, keeps⟩ := forall_mem_cons.mp keeps
    obtain ⟨fluent', first, called⟩ := call_fluent env fluent keep
    obtain ⟨more, rest⟩ := ih fluent' keeps
    exact ⟨first ++ more, by simp [respond, called, rest, bind, Except.bind]⟩

theorem write_opening (opening : Opening o) (body : o.ignoreBody = false)
    (converts : o.headers.Converts) (data : Bytes) :
    let built := (o.counted data).decided
    o.write env data = ({ built with headersSent := true },
      .ok ([.awaitPrev, .send (built.buildHeaders env ++ crlf)] ++
        (BodyWriter.create (mode o.data)).write env data)) := by
  intro built
  have decided : (o.counted data).decideTransferMode none = .ok built :=
    decideTransferMode_ok opening.undecided converts
  have unsent : built.headersSent = false := opening.unsent
  have reads : ¬(o.counted data).ignoreBody = true := by simp [counted, body]
  rw [write, if_neg reads, decided]
  simp [writeHeaders, unsent]
  rfl

theorem write_waits (undecided : o.bodyWriter = none) (data : Bytes)
    (waits : ¬(o.ignoreBody = false ∧ o.headers.Converts)) :
    ∃ done, o.write env data = (o.counted data, done) ∧ done.toOption.getD [] = [] ∧
      (o.ignoreBody = false → ∃ e, done = .error e) := by
  by_cases body : o.ignoreBody = false
  · obtain ⟨e, fails⟩ := decideTransferMode_error (o := o.counted data) undecided
      (fun converts => waits ⟨body, converts⟩)
    have reads : ¬(o.counted data).ignoreBody = true := by simp [counted, body]
    exact ⟨.error e, by rw [write, if_neg reads, fails], rfl, fun _ => ⟨e, rfl⟩⟩
  · exact ⟨.ok [], if_pos (Bool.eq_true_of_not_eq_false body), rfl, fun reads => absurd reads body⟩

/-- What `end()` builds the header block from. -/
def measured (o : Outgoing M) : Outgoing M :=
  if o.headers.HasLength then o else o.setLength o.bodyLength.toNat

theorem Opening.measured (opening : Opening o) : Opening o.measured := by
  unfold Outgoing.measured
  split <;> exact { opening with }

theorem finish_opening (opening : Opening o) :
    o.finish env = ({ o.measured with headersSent := true },
      [.awaitPrev, .send (o.measured.buildHeaders env ++ crlf), .finish]) := by
  have built : (if o.headersSent ∨ o.headers.HasLength then o
      else o.setLength o.bodyLength.toNat) = o.measured := by
    simp [Outgoing.measured, opening.unsent]
  obtain ⟨unsent, undecided⟩ := opening.measured
  rw [finish, built]
  simp [writeHeaders, unsent, undecided]

theorem finishBody_opening (unsent : o.headersSent = false)
    (chosen : o.bodyWriter = some .contentLength) :
    (o.finishBody env data).1 = { o with headersSent := true } ∧
      wire (o.finishBody env data).2 = o.buildHeaders env ++ (crlf ++ data) := by
  simp only [finishBody]
  split
  · simp [wire]
  · simp [writeHeaders, unsent, chosen, BodyWriter.write, BodyWriter.finish, wire]

/-- What an `end` builds the header block from. -/
def sized (last : Ending) (o : Outgoing M) : Outgoing M :=
  if o.ignoreBody ∨ last.bytes = [] then (o.counted last.bytes).measured
  else ((o.counted last.bytes).setLength last.bytes.length).useWriter .contentLength

/-- An `end` before which nothing was sent sends the header block and its own data. -/
theorem ending_opening (opening : Opening o) (last : Ending) :
    (o.ending env last).1 = { o.sized last with headersSent := true } ∧
    wire (o.ending env last).2 = (o.sized last).buildHeaders env ++
      (crlf ++ if o.ignoreBody then [] else last.bytes) := by
  have counted : Opening (o.counted last.bytes) := { opening with }
  rw [ending_eq]
  by_cases skips : o.ignoreBody ∨ last.bytes = []
  · have built : o.sized last = (o.counted last.bytes).measured := if_pos skips
    have ended : o.finishWith env last.bytes = (o.counted last.bytes).finish env := if_pos skips
    have nothing : (if o.ignoreBody then [] else last.bytes) = [] := by
      rcases skips with ignores | empty
      · exact if_pos ignores
      · rw [empty, ite_self]
    rw [ended, built, nothing, finish_opening env counted]
    exact ⟨rfl, by simp [wire]⟩
  · have built : o.sized last = ((o.counted last.bytes).setLength last.bytes.length).useWriter
        .contentLength := if_neg skips
    have ended : o.finishWith env last.bytes =
        ((o.counted last.bytes).hinted last.bytes.length).finishBody env last.bytes :=
      if_neg skips
    have chosen : (o.counted last.bytes).hinted last.bytes.length = o.sized last :=
      (if_neg (by simp [counted.undecided])).trans built.symm
    rw [ended, chosen, if_neg (not_or.mp skips).1, built]
    exact finishBody_opening env counted.unsent rfl

/-- What the header block is built from, `length` being the bytes counted by then. -/
def opened (calls : List (MessageCall M)) (last : Ending) (length : UInt64) (o : Outgoing M) :
    Outgoing M :=
  let start := atHead o.ignoreBody calls o.data
  let o : Outgoing M := { o with data := start.1, bodyLength := length }
  if start.2 = [] then o.sized last else o.decided

/-- The writer that the data goes through, by what `atHead` gives. -/
def writerAt (start : M × List Bytes) : BodyWriter :=
  if start.2 = [] then .contentLength else .create (mode start.1)

/-- What a whole message sends: the header block and the data as the writer passes it on. -/
structure Sent (calls : List (MessageCall M)) (last : Ending) (o : Outgoing M) (bytes : Bytes) :
    Prop where
  built : ∃ length,
    o.headState env (script calls last) = { o.opened calls last length with headersSent := true }
  wire : wire (o.events env (script calls last)) =
    (o.headState env (script calls last)).buildHeaders env ++ (crlf ++ (bytes ++
      Http.wire (writerAt (atHead o.ignoreBody calls o.data)).finish))
  passes : (writerAt (atHead o.ignoreBody calls o.data) = .chunked →
      (∀ call ∈ calls, call.bytes.length < 2 ^ 52) ∧ last.bytes.length < 2 ^ 52) →
    (writerAt (atHead o.ignoreBody calls o.data)).Passes
      (if o.ignoreBody then [] else
        (atHead o.ignoreBody calls o.data).2.flatten ++ last.bytes) bytes
  final : if (atHead o.ignoreBody calls o.data).2 = [] then
      o.after env (script calls last) = o.headState env (script calls last)
    else Streaming (writerAt (atHead o.ignoreBody calls o.data))
      (o.after env (script calls last))

/-- A call that sends nothing comes before the header block. -/
theorem Sent.cons {call : MessageCall M} {set : M} {length : UInt64} {bytes : Bytes}
    (sent : Sent env calls last { o with data := set, bodyLength := length } bytes)
    (unsent : o.headersSent = false)
    (silent : o.react env (.early call) = ({ o with data := set, bodyLength := length }, []))
    (start : atHead o.ignoreBody (call :: calls) o.data =
      atHead o.ignoreBody calls set) :
    Sent env (call :: calls) last o bytes := by
  have state : o.headState env (script (call :: calls) last) =
      headState env (script calls last) { o with data := set, bodyLength := length } := by
    rw [script, map_cons, cons_append, headState, silent]
    exact if_neg (by simp [unsent])
  have events : o.events env (script (call :: calls) last) =
      events env (script calls last) { o with data := set, bodyLength := length } := by
    rw [script, map_cons, cons_append, Outgoing.events, silent]
    rfl
  have after : o.after env (script (call :: calls) last) =
      after env (script calls last) { o with data := set, bodyLength := length } := by
    rw [script, map_cons, cons_append, Outgoing.after, foldl_cons, silent]
    rfl
  obtain ⟨⟨length, built⟩, wire, passes, final⟩ := sent
  constructor
  · refine ⟨length, state.trans (built.trans ?_)⟩
    rw [opened, opened, start]
  · rw [events, state, start, wire]
  · rw [start]
    intro fits
    exact passes fun chunked => (fits chunked).imp_left fun small => (forall_mem_cons.mp small).2
  · rw [start, state, after]
    exact final

/-- A write that sends the header block. -/
theorem sent_write (opening : Opening o) (opens : o.ignoreBody = false ∧ o.headers.Converts)
    (start : atHead o.ignoreBody (.write data :: calls) o.data =
      (o.data, data :: calls.map bytes)) (last : Ending) :
    ∃ bytes, Sent env (.write data :: calls) last o bytes := by
  let built := (o.counted data).decided
  have writer : writerAt (o.data, data :: calls.map bytes) =
      .create (mode o.data) := if_neg (cons_ne_nil _ _)
  have next : o.react env (.early (.write data)) = ({ built with headersSent := true },
      [.awaitPrev, .send (built.buildHeaders env ++ crlf)] ++
        (BodyWriter.create (mode o.data)).write env data) := by
    rw [react, call, write_opening env opening opens.1 opens.2 data]
    rfl
  have streaming : Streaming (.create (mode o.data))
      { built with headersSent := true } := ⟨rfl, rfl, opens.1⟩
  obtain ⟨final, bytes, more, passes⟩ := events_streaming env streaming calls last
  have state : o.headState env (script (.write data :: calls) last) =
      { built with headersSent := true } := by
    rw [script, map_cons, cons_append, headState, next]
    rfl
  refine ⟨wire ((BodyWriter.create (mode o.data)).write env data) ++ bytes,
    ⟨(o.counted data).bodyLength, ?_⟩, ?_, ?_, ?_⟩
  · rw [state, opened, start]
    rfl
  · rw [state, start, writer, script, map_cons, cons_append, events, next, wire_append]
    have rest : wire (events env (calls.map .early ++ [.ending last])
        { built with headersSent := true }) = _ := more
    rw [rest, wire_append]
    simp [wire, buildHeaders]
  · rw [start, writer, if_neg (by simp [opens.1]), flatten_cons, append_assoc, ← flatMap_def]
    intro fits
    have first : (BodyWriter.create (mode o.data)).Fits data :=
      fun chunked => (fits chunked).1 (.write data) mem_cons_self
    exact (passes_write env first).append (passes
      (fun call mem chunked => (fits chunked).1 call (mem_cons_of_mem _ mem))
      fun chunked => (fits chunked).2)
  · rw [start, writer, if_neg (cons_ne_nil _ _), script, map_cons, cons_append, after, foldl_cons,
      next]
    exact final

theorem sent_opening (opening : Opening o) (calls : List (MessageCall M)) (last : Ending) :
    ∃ bytes, Sent env calls last o bytes := by
  induction calls generalizing o with
  | nil =>
    obtain ⟨state, sent⟩ := ending_opening env opening last
    have built : o.headState env (script [] last) = { o.sized last with headersSent := true } := by
      simp only [script, map_nil, nil_append, headState, react, state, ite_self]
    refine ⟨if o.ignoreBody then [] else last.bytes, ⟨o.bodyLength, built⟩, ?_, fun _ => rfl, ?_⟩
    · rw [built]
      simp only [script, map_nil, nil_append, events, react, append_nil, sent]
      exact congrArg _ (congrArg _ (append_nil _).symm)
    · exact state.trans built.symm
  | cons call calls ih =>
    cases call with
    | setHeader header =>
      obtain ⟨bytes, sent⟩ := ih (o := o.setHeader header) { opening with }
      exact ⟨bytes, Sent.cons env sent opening.unsent rfl rfl⟩
    | edit change keeps =>
      obtain ⟨bytes, sent⟩ := ih (o := { o with data := change o.data }) { opening with }
      exact ⟨bytes, Sent.cons env sent opening.unsent rfl rfl⟩
    | write data =>
      by_cases opens : o.ignoreBody = false ∧ o.headers.Converts
      · have start : atHead o.ignoreBody (.write data :: calls) o.data =
            (o.data, data :: calls.map bytes) := if_pos opens
        exact sent_write env opening opens start last
      · have start : atHead o.ignoreBody (.write data :: calls) o.data =
            atHead o.ignoreBody calls o.data := if_neg opens
        obtain ⟨done, written, silent, -⟩ := write_waits env opening.undecided data opens
        obtain ⟨bytes, sent⟩ := ih (o := o.counted data) { opening with }
        refine ⟨bytes, Sent.cons env sent opening.unsent ?_ start⟩
        simp only [react, call, written, silent]
        rfl

end Outgoing

end Nitrocoro.Http
