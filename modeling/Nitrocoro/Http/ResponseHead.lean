import Nitrocoro.Http.RoundTrip

/-! The head of a response after the calls of a handler that sets a length, or sends no body: the
status and the headers that a client gets are those that were set last, and the body follows. -/
namespace Nitrocoro.Http
open Text List OutgoingResponse NameCode

namespace OutgoingResponse
variable {env : Env} {o : OutgoingResponse} {call : Call} {calls : List Call}
  {data : Bytes}

def set (o : OutgoingResponse) : Call → OutgoingResponse
  | .write _ => o
  | call => (o.call {} call).1

def configure (calls : List Call) (o : OutgoingResponse) : OutgoingResponse := calls.foldl set o

theorem call_eq_set (quiet : call.isWrite = false) : o.call env call = (o.set call, .ok []) := by
  cases call with
  | write data => cases quiet
  | _ => rfl

theorem respond_configure (quiet : ∀ call ∈ calls, call.isWrite = false) (env : Env)
    (last : Ending) (rest : List Call) :
    o.respond env last (calls ++ rest) = (o.configure calls).respond env last rest := by
  induction calls generalizing o with
  | nil => rfl
  | cons call calls ih =>
    obtain ⟨first, quiet⟩ := forall_mem_cons.mp quiet
    have called : Outgoing.call env o call.message = _ := call_eq_set first
    rw [respond, cons_append, map_cons, Outgoing.respond, called]
    refine Eq.trans ?_ (ih quiet)
    rw [respond]
    cases Outgoing.respond env last ((calls ++ rest).map Call.message) (o.set call) <;> rfl

structure Unsent (o : OutgoingResponse) : Prop where
  sent : o.headersSent = false
  writer : o.bodyWriter = none
  body : o.ignoreBody = false
  empty : o.bodyLength = 0

theorem Unsent.configure (unsent : Unsent o) (calls : List Call) : Unsent (o.configure calls) := by
  induction calls generalizing o with
  | nil => exact unsent
  | cons call calls ih =>
    have first : Unsent (o.set call) := by
      obtain ⟨sent, writer, body, empty⟩ := unsent
      cases call <;> exact ⟨sent, writer, body, empty⟩
    exact ih first

def head (sendDate : Bool) (calls : List Call) : OutgoingResponse :=
  ((create false sendDate).configure calls).measured

theorem unsent_create (sendDate : Bool) : Unsent (create false sendDate) := ⟨rfl, rfl, rfl, rfl⟩

theorem set_header (o : OutgoingResponse) (call : Call) (name : Bytes) :
    ((o.set call).data.headers.lookup name).map HttpHeader.value =
      (call.header?.filter (fun pair => name == pair.1)).elim
        ((o.data.headers.lookup name).map HttpHeader.value) fun pair => some pair.2 := by
  have sets (header : HttpHeader) :
      ((o.setHeader header).data.headers.lookup name).map HttpHeader.value =
        ((some (header.name, header.value)).filter (fun pair => name == pair.1)).elim
          ((o.data.headers.lookup name).map HttpHeader.value) fun pair => some pair.2 := by
    rw [Configured.lookup_setHeader]
    by_cases same : name == header.name <;> simp [same, Option.filter]
  cases call with
  | setHeader key value => exact sets (.ofName key value)
  | setHeaderCode code value => exact sets (.ofCode code value)
  | _ => rfl

theorem set_status (o : OutgoingResponse) (call : Call) :
    (o.set call).data.statusCode = (call.status?.map (· % 2 ^ 16)).getD o.data.statusCode := by
  cases call <;> rfl

theorem configure_header (sendDate : Bool) (calls : List Call) (name : Bytes) :
    ((((create false sendDate).configure calls).data.headers.lookup name).map HttpHeader.value) =
      headerSet calls name := by
  induction calls using List.reverseRecOn with
  | nil => rfl
  | append_singleton calls call ih =>
    rw [configure, foldl_append, foldl_cons, foldl_nil, set_header, headerSet_concat, ← ih]
    rfl

theorem configure_status (sendDate : Bool) (calls : List Call) :
    ((create false sendDate).configure calls).data.statusCode = statusSet calls % 2 ^ 16 := by
  induction calls using List.reverseRecOn with
  | nil => rfl
  | append_singleton calls call ih =>
    rw [configure, foldl_append, foldl_cons, foldl_nil, set_status, statusSet_concat]
    cases call.status? with
    | none => exact ih
    | some code => rfl

theorem head_length (sendDate : Bool) (calls : List Call) :
    ((head sendDate calls).data.headers.lookup ContentLength.codeToName).map
      HttpHeader.value =
        some ((headerSet calls ContentLength.codeToName).getD (Numeral.print 10 0)) := by
  have lookup := configure_header sendDate calls ContentLength.codeToName
  have length := ((unsent_create sendDate).configure calls).empty
  unfold head
  generalize (create false sendDate).configure calls = o at lookup length ⊢
  rw [← lookup]
  cases held : o.data.headers.lookup ContentLength.codeToName with
  | some header =>
    have kept : o.measured = o := if_pos (HttpHeaderMap.hasLength_of_lookup held)
    rw [kept, held]
    rfl
  | none =>
    have set : o.measured = o.setLength o.bodyLength.toNat :=
      if_neg (Option.not_isSome_iff_eq_none.mpr held)
    rw [set, Outgoing.setLength, Configured.lookup_setHeader, length]
    rfl

theorem wire_respond {writes : List Bytes} (quiet : ∀ call ∈ calls, call.isWrite = false)
    (counted : writes = [] ∨ headerSet calls ContentLength.codeToName = some value)
    (responded : (create false sendDate).respond env .plain (calls ++ writes.map .write) =
      .ok events) :
    wire events = (head sendDate calls).buildHeaders env ++ (crlf ++ writes.flatten) ∧
      (writes = [] ∨ ∃ n, Numeral.stoul 10 value = .ok n) := by
  have unsent := (unsent_create sendDate).configure calls
  have lookup := configure_header sendDate calls ContentLength.codeToName
  rw [respond_configure quiet] at responded
  unfold head
  generalize (create false sendDate).configure calls = o at unsent lookup responded ⊢
  have opening : o.Opening := ⟨unsent.sent, unsent.writer⟩
  have sent : o.events env (script (map Call.message (writes.map .write)) .plain) = events :=
    Outgoing.events_of_respond env responded
  cases writes with
  | nil =>
    have finished : events = (o.finish env).2 := sent.symm.trans (append_nil _)
    rw [finished, Outgoing.finish_opening env opening]
    exact ⟨by simp [wire], .inl rfl⟩
  | cons data writes =>
    rw [counted.resolve_left (cons_ne_nil _ _)] at lookup
    obtain ⟨header, held, rfl⟩ := Option.map_eq_some_iff.mp lookup
    have sized : o.headers.HasLength := HttpHeaderMap.hasLength_of_lookup held
    have converts : o.headers.Converts := by
      by_contra fails
      obtain ⟨done, written, -, throws⟩ :=
        Outgoing.write_waits env unsent.writer data fun both => fails both.2
      obtain ⟨e, rfl⟩ := throws unsent.body
      simp [respond, Outgoing.respond, Call.message, Outgoing.call, written, bind, Except.bind]
        at responded
    have start : MessageCall.atHead o.ignoreBody (map Call.message (map .write (data :: writes))) o.data =
        (o.data, data :: ((writes.map .write).map Call.message).map MessageCall.bytes) :=
      if_pos ⟨unsent.body, converts⟩
    have writer : Outgoing.writerAt (o.data, data ::
        ((writes.map .write).map Call.message).map MessageCall.bytes) = .contentLength := by
      simp [Outgoing.writerAt, MessageKind.mode, sized, BodyWriter.create]
    obtain ⟨bytes, ⟨length, built⟩, whole, passes, -⟩ := Outgoing.sent_opening env opening
      (map Call.message (map .write (data :: writes))) .plain
    rw [start, writer, unsent.body] at passes
    have measured : o.measured = o := if_pos sized
    have head : (o.headState env (script (map Call.message (map .write (data :: writes)))
        .plain)).buildHeaders env = o.buildHeaders env := by
      rw [built, Outgoing.opened, start]
      have kept : MessageKind.announce o.data = o.data := if_pos (.inl sized)
      exact congrArg (MessageKind.buildHeaders env o.sendDateHeader) kept
    refine ⟨?_, .inr ?_⟩
    · rw [← sent, whole, start, writer, head, measured, show bytes = _ from passes (by simp)]
      simp [BodyWriter.finish, wire, Function.comp_def, Call.message, MessageCall.bytes,
        Ending.bytes]
    · simp only [HttpHeaderMap.Converts, show o.headers.lookup _ = some header from held,
        Option.all_some] at converts
      cases number : Numeral.stoul 10 header.value with
      | error e => simp [number, Except.toBool] at converts
      | ok n => exact ⟨n, rfl⟩

end OutgoingResponse

section headerSet
variable (name : Bytes) (calls : List Call)

@[simp] theorem headerSet_nil : headerSet [] name = none := rfl

@[simp] theorem headerSet_append (more : List Call) :
    headerSet (calls ++ more) name = (headerSet more name).or (headerSet calls name) := by
  rw [headerSet, filterMap_append, reverse_append, lookup_append]
  rfl

@[simp] theorem headerSet_status (code : Nat) (reason : Bytes) :
    headerSet (.setStatus code reason :: calls) name = headerSet calls name := rfl

@[simp] theorem headerSet_name (key value : Bytes) :
    headerSet (.setHeader key value :: calls) name =
      (headerSet calls name).or (if name = toLower key then some value else none) := by
  refine (headerSet_append name [.setHeader key value] calls).trans (congrArg _ ?_)
  simp only [headerSet, Call.header?, filterMap_cons, filterMap_nil,
    reverse_singleton, OrderedMap.lookup_cons_ite, beq_iff_eq]
  rfl

@[simp] theorem headerSet_code (code : NameCode) (value : Bytes) :
    headerSet (.setHeaderCode code value :: calls) name =
      (headerSet calls name).or (if name = code.codeToName then some value else none) := by
  refine (headerSet_append name [.setHeaderCode code value] calls).trans (congrArg _ ?_)
  simp only [headerSet, Call.header?, filterMap_cons, filterMap_nil,
    reverse_singleton, OrderedMap.lookup_cons_ite, beq_iff_eq]
  rfl

end headerSet

theorem codeToName_eq_iff {code code' : NameCode} (known : code ≠ .Unknown)
    (known' : code' ≠ .Unknown) : code.codeToName = code'.codeToName ↔ code = code' := by
  rw [← nameToCode_eq_iff known', (nameToCode_eq_iff known).mpr rfl]

theorem print_inj : Numeral.print 10 n = Numeral.print 10 m ↔ n = m := by
  refine ⟨fun same => ?_, congrArg _⟩
  rw [← Numeral.value_print (by decide : 1 < 10) (by decide) n, same, Numeral.value_print] <;> decide

structure View where
  status : Nat
  contentType : Option Bytes
  contentEncoding : Option Bytes
  contentLength : Option Bytes
  body : Bytes

def view (answer : List Call × Bytes) : View :=
  let head := (head true answer.1).data
  let header (code : NameCode) := (head.headers.lookup code.codeToName).map HttpHeader.value
  { status := head.statusCode
    contentType := header .ContentType
    contentEncoding := header .ContentEncoding
    contentLength := header .ContentLength
    body := answer.2 }

theorem head_other (sendDate : Bool) (calls : List Call) :
    (head sendDate calls).data.statusCode = statusSet calls % 2 ^ 16 ∧
      ∀ name, name ≠ ContentLength.codeToName →
        ((head sendDate calls).data.headers.lookup name).map HttpHeader.value =
          headerSet calls name := by
  rw [← configure_status sendDate]
  simp only [← configure_header sendDate]
  unfold OutgoingResponse.head Outgoing.measured
  split
  · exact ⟨rfl, fun _ _ => rfl⟩
  · refine ⟨rfl, fun name other => ?_⟩
    rw [Outgoing.setLength, Configured.lookup_setHeader]
    simp [HttpHeader.ofCode, other]

theorem view_eq (calls : List Call) (body : Bytes) : view (calls, body) =
    { status := statusSet calls % 2 ^ 16
      contentType := headerSet calls ContentType.codeToName
      contentEncoding := headerSet calls ContentEncoding.codeToName
      contentLength := some ((headerSet calls ContentLength.codeToName).getD
        (Numeral.print 10 0))
      body := body } := by
  obtain ⟨status, other⟩ := head_other true calls
  simp only [view, status, other _ (by decide : ContentType.codeToName ≠ _),
    other _ (by decide : ContentEncoding.codeToName ≠ _), head_length]

theorem view_status {a : List Call × Bytes} (known : statusSet a.1 = code)
    (small : code < 2 ^ 16) : (view a).status = code := by
  apply (head_other true a.1).1.trans
  rw [known, Nat.mod_eq_of_lt small]

theorem statusSet_append (calls more : List Call) : statusSet (calls ++ more) =
    ((more.filterMap Call.status?).getLast?).getD (statusSet calls) := by
  rw [statusSet, filterMap_append, List.getLast?_append]
  cases (more.filterMap Call.status?).getLast? <;> rfl

end Nitrocoro.Http
