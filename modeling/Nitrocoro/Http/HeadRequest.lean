import Nitrocoro.Http.RoundTrip

/-! The answer to a HEAD request is the header block alone, with the length of the body that the
same calls send to a GET request. -/
namespace Nitrocoro.Http
open Text List MessageCall

def Call.KeepsLength (call : Call) : Prop :=
  ∀ pair ∈ call.header?, pair.1 ≠ NameCode.ContentLength.codeToName

theorem Call.keepsLength_message {call : Call} (keeps : call.KeepsLength) :
    call.message.KeepsLength := by
  cases call with
  | setHeader | setHeaderCode => exact keeps _ rfl
  | _ => trivial

theorem written_eq (calls : List Call) (last : Ending) :
    written calls last = (calls.map Call.message).flatMap bytes ++ last.bytes := by
  simp [written, flatMap_map, Call.bytes_message]

namespace HttpHeaderMap

/-- No header is a Content-Length. -/
def Unsized (headers : HttpHeaderMap) : Prop :=
  ∀ entry ∈ headers, entry.1 ≠ NameCode.ContentLength.codeToName ∧
    toLower entry.2.name ≠ NameCode.ContentLength.codeToName

theorem Unsized.lookup {headers : HttpHeaderMap} (unsized : Unsized headers) :
    headers.lookup NameCode.ContentLength.codeToName = none := by
  rw [lookup_eq_none_iff]
  intro entry mem
  exact bne_iff_ne.mpr (unsized entry mem).1.symm

theorem Unsized.insert {headers : HttpHeaderMap} {header : HttpHeader} (unsized : Unsized headers)
    (other : header.name ≠ NameCode.ContentLength.codeToName)
    (lower : toLower header.name = header.name) :
    Unsized (OrderedMap.insertOrAssign header.name header headers) := by
  intro entry mem
  rcases OrderedMap.mem_insertOrAssign mem with rfl | old
  · exact ⟨other, lower.symm ▸ other⟩
  · exact unsized entry old

end HttpHeaderMap

namespace Outgoing
variable [MessageKind M] {o : Outgoing M}

/-- Where the body is ignored the calls send the header block of the `end`, which counts all the
data that was written. -/
theorem events_head (env : Env) (opening : Opening o) (ignores : o.ignoreBody = true)
    (calls : List (MessageCall M)) (last : Ending) :
    let start := atHead true calls o.data
    let length := (calls.flatMap bytes ++ last.bytes).length
    let built := measured { o with data := start.1, bodyLength := o.bodyLength + .ofNat length }
    o.events env (script calls last) =
      [.awaitPrev, .send (built.buildHeaders env ++ crlf), .finish] := by
  induction calls generalizing o with
  | nil =>
    have ended : o.ending env last = (o.counted last.bytes).finish env := by
      rw [ending_eq]
      exact if_pos (.inl ignores)
    have counted : Opening (o.counted last.bytes) := { opening with }
    simp only [script, map_nil, nil_append, events, react, ended, finish_opening env counted]
    rfl
  | cons call calls ih =>
    cases call with
    | setHeader header => exact ih (o := o.setHeader header) { opening with } ignores
    | edit change keeps => exact ih (o := { o with data := change o.data }) { opening with } ignores
    | write data =>
      have skips : o.write env data = (o.counted data, .ok []) := if_pos ignores
      have rest := ih (o := o.counted data) { opening with } ignores
      have start : atHead true (.write data :: calls) o.data =
          atHead true calls o.data := if_neg (by simp)
      have total : (o.counted data).bodyLength +
          .ofNat (calls.flatMap bytes ++ last.bytes).length =
            o.bodyLength + .ofNat ((MessageCall.write (M := M) data :: calls).flatMap
              bytes ++ last.bytes).length := by
        have sizes : (bytes (.write (M := M) data) ++
            (calls.flatMap bytes ++ last.bytes)).length =
              data.length + (calls.flatMap bytes ++ last.bytes).length :=
          length_append
        rw [flatMap_cons, append_assoc, sizes, UInt64.ofNat_add, ← UInt64.add_assoc]
        rfl
      have first : o.events env (script (.write data :: calls) last) =
          (o.counted data).events env (script calls last) := by
        simp [script, events, react, call, skips, Except.toOption]
      intro start' length built
      rw [first, rest, total]
      simp only [built, start', start, length]
      rfl

theorem fluent_flatten (calls : List (MessageCall M)) (keeps : ∀ call ∈ calls, call.KeepsLength)
    {data : M} (free : ¬(MessageKind.headers data).HasLength) :
    (atHead false calls data).2.flatten = calls.flatMap bytes := by
  induction calls generalizing data with
  | nil => rfl
  | cons call calls ih =>
    obtain ⟨keep, others⟩ := forall_mem_cons.mp keeps
    cases call with
    | setHeader header =>
      refine ih others fun length => ?_
      rw [MessageKind.headers_setHeaders, HttpHeaderMap.hasLength_insert] at length
      exact length.elim keep free
    | edit change same => exact ih others (same data ▸ free)
    | write first =>
      have absent := Option.not_isSome_iff_eq_none.mp free
      have converts : (MessageKind.headers data).Converts := by
        simp [HttpHeaderMap.Converts, absent]
      rw [atHead, if_pos ⟨rfl, converts⟩, flatten_cons, ← flatMap_def]
      rfl

/-- The calls that leave the length to the stream send all the data that they write. -/
theorem respond_body (env : Env) (opening : Opening o) (body : o.ignoreBody = false)
    (free : ¬o.headers.HasLength) (calls : List (MessageCall M)) (last : Ending)
    (keeps : ∀ call ∈ calls, call.KeepsLength)
    (small : ∀ call ∈ calls, call.bytes.length < 2 ^ 52) (short : last.bytes.length < 2 ^ 52) :
    ∃ (get : Outgoing M) (events : List Event) (after : Bytes),
      o.respond env last calls = .ok events ∧
      wire events = get.buildHeaders env ++ (crlf ++ after) ∧
      (after = calls.flatMap bytes ++ last.bytes ∨ ∃ coding : ChunkedBody,
        coding.encode = after ∧ coding.data = calls.flatMap bytes ++ last.bytes) := by
  obtain ⟨bytes, -, sent, passes, -⟩ := sent_opening env opening calls last
  refine ⟨_, _, _, respond_fluent env (fun _ => free) keeps, sent, ?_⟩
  have content := passes fun _ => ⟨small, short⟩
  rw [body] at content ⊢
  rw [if_neg (by decide), fluent_flatten calls keeps free] at content
  rcases content.body with ⟨-, coding⟩ | ⟨-, raw⟩
  · exact .inr coding
  · exact .inl raw

end Outgoing

namespace OutgoingResponse
variable {o : OutgoingResponse}

theorem unsized_atHead (calls : List Call) (keeps : ∀ call ∈ calls, call.KeepsLength)
    {data : HttpResponse} (unsized : data.headers.Unsized) :
    (atHead true (calls.map Call.message) data).1.headers.Unsized := by
  induction calls generalizing data with
  | nil => exact unsized
  | cons call calls ih =>
    obtain ⟨keep, others⟩ := forall_mem_cons.mp keeps
    cases call with
    | setHeader name value => exact ih others (unsized.insert (keep _ rfl) (toLower_toLower name))
    | setHeaderCode code value =>
      exact ih others (unsized.insert (keep _ rfl) (HttpHeader.lower_ofCode code value))
    | write bytes =>
      rw [map_cons, Call.message, atHead, if_neg (by simp)]
      exact ih others unsized
    | _ => exact ih others unsized

/-- The lines of a header block that name Content-Length. -/
def lengthLines (lines : List (Bytes × Bytes)) : List (Bytes × Bytes) :=
  lines.filter fun line => toLower line.1 = NameCode.ContentLength.codeToName

theorem lengthLines_head (unsized : o.data.headers.Unsized) (env : Env) :
    lengthLines (headPairs env o.measured) =
      [(NameCode.ContentLength.codeToName, Numeral.print 10 o.bodyLength.toNat)] := by
  have set : o.measured = o.setLength o.bodyLength.toNat :=
    if_neg (Option.not_isSome_iff_eq_none.mpr unsized.lookup)
  let header := HttpHeader.ofCode .ContentLength (Numeral.print 10 o.bodyLength.toNat)
  have own : lengthLines (ownPairs (OrderedMap.insertOrAssign header.name header o.data.headers)) =
      [(NameCode.ContentLength.codeToName, Numeral.print 10 o.bodyLength.toNat)] := by
    rw [lengthLines, ownPairs, filter_map]
    rw [OrderedMap.filter_insertOrAssign]
    · rfl
    · intro entry mem
      simpa using (unsized entry mem).2
    · intro entry mem
      exact (unsized entry mem).1
    · exact decide_eq_true (HttpHeader.lower_ofCode .ContentLength header.value)
  have others : lengthLines (cookiePairs o.measured.data.cookies ++ addedPairs env o.measured) = [] := by
    rw [lengthLines, filter_eq_nil_iff]
    intro line mem
    have named : line.1 ∈ [ascii "Set-Cookie", ascii "Date", ascii "Connection"] := by
      rcases mem_append.mp mem with cookie | added
      · obtain ⟨_, -, rfl⟩ := mem_map.mp cookie
        exact mem_cons_self
      · rcases mem_addedPairs added with rfl | rfl | rfl <;> simp
    have free : ∀ name ∈ [ascii "Set-Cookie", ascii "Date", ascii "Connection"],
        toLower name ≠ NameCode.ContentLength.codeToName := by decide
    exact mt of_decide_eq_true (free _ named)
  rw [headPairs, lengthLines, filter_append]
  exact (congrArg₂ (· ++ ·) (set ▸ own) others).trans (append_nil _)

/-- A handler that writes `n` pieces of `size` bytes. -/
def pieces (n size : Nat) : List Call := replicate n (.write (replicate size 0))

theorem length_pieces (n size : Nat) : (written (pieces n size) .plain).length = n * size := by
  simp [written, pieces, Call.bytes, Ending.bytes]

theorem keeps_pieces (n size : Nat) :
    ∀ call ∈ (pieces n size).map Call.message, call.KeepsLength := by
  intro call mem
  obtain ⟨_, here, rfl⟩ := mem_map.mp mem
  rw [eq_of_mem_replicate here]
  trivial

theorem atHead_pieces (n size : Nat) (data : HttpResponse) :
    (atHead true ((pieces n size).map Call.message) data).1 = data := by
  induction n with
  | zero => rfl
  | succ n ih =>
    rw [pieces, replicate_succ, map_cons, Call.message, atHead, if_neg (by simp)]
    exact ih

theorem respond_pieces (wraps : UInt64.ofNat (n * size) = 0) :
    (create true false).respond {} .plain (pieces n size) = .ok [.awaitPrev,
      .send (ascii "HTTP/1.1 200 OK\r\ncontent-length: 0\r\n\r\n"), .finish] := by
  have silent : (create true false).respond {} .plain (pieces n size) = _ :=
    Outgoing.respond_fluent {} nofun (keeps_pieces n size)
  rw [silent, Outgoing.events_head {} ⟨rfl, rfl⟩ rfl, ← written_eq, length_pieces, wraps,
    atHead_pieces]
  decide +kernel

end OutgoingResponse

end Nitrocoro.Http
