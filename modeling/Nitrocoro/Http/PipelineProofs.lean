import Nitrocoro.Http.Pipeline

/-! The responses of a connection come out in the order of the requests, whatever the order in
which their coroutines run. Each awaits the one before it ahead of its first byte and fulfils its
promise after its last; what the shutdown of the stream cuts off is the only loss. -/
namespace Nitrocoro.Http
open Transition
open List hiding count

def Sends (events : List Event) : Prop := ∀ e ∈ events, ∃ bytes, e = .send bytes

/-- What a response does once it may write: it sends, and then it is finished. -/
def Sending (events : List Event) : Prop := ∃ sends, Sends sends ∧ events = sends ++ [.finish]

def InTurn (events : List Event) : Prop := ∃ sending, Sending sending ∧ events = .awaitPrev :: sending

theorem Sends.append (first : Sends a) (second : Sends b) : Sends (a ++ b) := by
  intro e mem
  rcases mem_append.mp mem with mem | mem
  · exact first e mem
  · exact second e mem

theorem BodyWriter.sends_write (w : BodyWriter) (env : Env) (data : Text.Bytes) :
    Sends (w.write env data) := by
  intro e mem
  cases w with
  | chunked =>
    simp only [BodyWriter.write] at mem
    split at mem
    · cases mem
    · exact ⟨_, mem_singleton.mp mem⟩
  | contentLength | untilClose => exact ⟨_, mem_singleton.mp mem⟩

theorem BodyWriter.sends_finish (w : BodyWriter) : Sends w.finish := by
  intro e mem
  cases w with
  | chunked => exact ⟨_, mem_singleton.mp mem⟩
  | contentLength => cases mem
  | untilClose => cases mem

namespace Outgoing
variable {o o' : Outgoing M} {events : List Event}

/-- What a call that does not end the message does: the first that sends anything waits first. -/
def Proceeds (o o' : Outgoing M) (events : List Event) : Prop :=
  if o.headersSent then o'.headersSent = true ∧ Sends events
  else (o'.headersSent = false ∧ events = []) ∨
    (o'.headersSent = true ∧ ∃ sends, Sends sends ∧ events = .awaitPrev :: sends)

def Remains (o : Outgoing M) (events : List Event) : Prop :=
  if o.headersSent then Sending events else InTurn events

theorem Proceeds.silent (same : o'.headersSent = o.headersSent) : Proceeds o o' [] := by
  unfold Proceeds
  split
  · rename_i sent
    exact ⟨same.trans sent, nofun⟩
  · rename_i unsent
    exact .inl ⟨same.trans (by simpa using unsent), rfl⟩

theorem Proceeds.remains (proceeds : Proceeds o o' events) (rest : Remains o' more) :
    Remains o (events ++ more) := by
  unfold Proceeds at proceeds
  unfold Remains at rest ⊢
  split at proceeds
  · rename_i sent
    obtain ⟨sent', sends⟩ := proceeds
    rw [if_pos sent'] at rest
    rw [if_pos sent]
    obtain ⟨others, sends', rfl⟩ := rest
    exact ⟨events ++ others, sends.append sends', (append_assoc _ _ _).symm⟩
  rename_i unsent
  rw [if_neg unsent]
  rcases proceeds with ⟨unsent', rfl⟩ | ⟨sent', sends, all, rfl⟩
  · rw [if_neg (by simp [unsent'])] at rest
    exact rest
  · rw [if_pos sent'] at rest
    obtain ⟨others, sends', rfl⟩ := rest
    exact ⟨_, ⟨sends ++ others, all.append sends', rfl⟩, by simp⟩

variable [MessageKind M] {env : Env} {data : Text.Bytes} {last : Ending}

theorem Proceeds.head (o : Outgoing M) (env : Env) (sends : Sends more) :
    Proceeds o (o.writeHeaders env).1 ((o.writeHeaders env).2 ++ more) := by
  unfold Proceeds writeHeaders
  cases sent : o.headersSent with
  | true => simpa using ⟨sent, sends⟩
  | false =>
    refine .inr ⟨rfl, .send (o.buildHeaders env ++ crlf) :: more, ?_, rfl⟩
    intro e mem
    rcases mem_cons.mp mem with rfl | mem
    · exact ⟨_, rfl⟩
    · exact sends e mem

theorem Proceeds.write (o : Outgoing M) (wrote : (o.write env data).2 = .ok events) :
    Proceeds o (o.write env data).1 events := by
  simp only [Outgoing.write] at wrote ⊢
  split at wrote
  · cases wrote
    rename_i ignores
    rw [if_pos ignores]
    exact .silent rfl
  rename_i reads
  rw [if_neg reads]
  split at wrote
  · cases wrote
  rename_i o₁ decided
  injection wrote with wrote
  subst wrote
  have sends : Sends ((o₁.writeHeaders env).1.bodyWriter.elim [] (·.write env data)) := by
    cases (o₁.writeHeaders env).1.bodyWriter with
    | none => nofun
    | some w => exact w.sends_write env data
  have proceeds := Proceeds.head o₁ env sends
  unfold Proceeds at proceeds ⊢
  rwa [(choice_decideTransferMode decided).sent] at proceeds

theorem Proceeds.step (o : Outgoing M) {call : MessageCall M}
    (called : (o.call env call).2 = .ok events) : Proceeds o (o.call env call).1 events := by
  cases call with
  | write data => exact .write o called
  | _ =>
    cases called
    exact .silent rfl

theorem Remains.head (o : Outgoing M) (env : Env) (sends : Sends more) :
    Remains o ((o.writeHeaders env).2 ++ more ++ [.finish]) := by
  apply (Proceeds.head o env sends).remains
  have sent : (o.writeHeaders env).1.headersSent = true := by
    unfold writeHeaders
    split
    · assumption
    · rfl
  rw [Remains, if_pos sent]
  exact ⟨[], nofun, rfl⟩

theorem Remains.finish (o : Outgoing M) (env : Env) : Remains o (o.finish env).2 := by
  let p := if o.headersSent ∨ o.headers.HasLength then o else o.setLength o.bodyLength.toNat
  have same : p.headersSent = o.headersSent := by
    unfold p
    split <;> rfl
  have sends : Sends ((p.writeHeaders env).1.bodyWriter.elim [] (·.finish)) := by
    cases (p.writeHeaders env).1.bodyWriter with
    | none => nofun
    | some w => exact w.sends_finish
  have remains := Remains.head p env sends
  unfold Remains at remains ⊢
  rwa [same] at remains

theorem Remains.finishBody (o : Outgoing M) (env : Env) (data : Text.Bytes) :
    Remains o (o.finishBody env data).2 := by
  unfold Outgoing.finishBody
  split
  · rename_i merged
    rw [Remains, if_neg (by simp [merged.1])]
    exact ⟨_, ⟨[.send (o.buildHeaders env ++ (crlf ++ data))], by simp [Sends], rfl⟩, rfl⟩
  have sends : Sends ((o.writeHeaders env).1.bodyWriter.elim []
      fun w => w.write env data ++ w.finish) := by
    cases (o.writeHeaders env).1.bodyWriter with
    | none => nofun
    | some w => exact (w.sends_write env data).append w.sends_finish
  exact Remains.head o env sends

theorem Remains.ending (o : Outgoing M) (env : Env) (last : Ending) :
    Remains o (o.ending env last).2 := by
  cases last with
  | plain => exact .finish o env
  | data data =>
    simp only [Outgoing.ending, finishWith]
    split
    · exact .finish (o.counted data) env
    have remains := Remains.finishBody ((o.counted data).hinted data.length) env data
    unfold Remains at remains ⊢
    rwa [(choice_hinted _ _).sent] at remains

/-- Whatever calls make up a message, it waits, sends and then fulfils its promise. -/
theorem Remains.respond (calls : List (MessageCall M))
    (responded : o.respond env last calls = .ok events) : Remains o events := by
  induction calls generalizing o events with
  | nil =>
    cases responded
    exact .ending o env last
  | cons call calls ih =>
    obtain ⟨first, called, rest⟩ := bind_eq_ok.mp responded
    obtain ⟨more, responded', same⟩ := bind_eq_ok.mp rest
    cases same
    exact (Proceeds.step o called).remains (ih responded')

end Outgoing

namespace Pipeline
open Text

theorem Answer.inTurn (answer : Answer) : InTurn answer.events :=
  Outgoing.Remains.respond _ answer.responds

namespace Response
variable {r r' : Response} {previous : Option Promise} {bytes part : Bytes}

inductive Waiting (r : Response) : Prop where
  | idle : r.promise = .pending → r.rest = r.script → Waiting r
  | gone : r.promise = .broken → r.rest = [] → Waiting r

inductive Writing (part : Bytes) (r : Response) : Prop where
  | going : r.promise = .pending → Sending r.rest → part ++ wire r.rest = wire r.script →
      Writing part r
  | gone : r.promise = .broken → r.rest = [] → part <+: wire r.script → Writing part r

structure Ended (r : Response) : Prop where
  promise : r.promise = .satisfied
  rest : r.rest = []

inductive Next (previous : Option Promise) (shut : Bool) (r : Response) : Response → Bytes → Prop where
  | turn (events : List Event) : r.rest = .awaitPrev :: events →
      previous = none ∨ previous = some .satisfied → Next previous shut r { r with rest := events } []
  | rethrow (events : List Event) : r.rest = .awaitPrev :: events → previous = some .broken →
      Next previous shut r r.abandon []
  | send (bytes more : Bytes) (events : List Event) : r.rest = .send (bytes ++ more) :: events →
      (shut = true → more = []) →
      Next previous shut r { r with rest := if more = [] then events else .send more :: events } bytes
  | finish (events : List Event) : r.rest = .finish :: events →
      Next previous shut r { r with rest := events, promise := .satisfied } []

theorem next_cases (took : r.next previous shut count = some (r', bytes)) :
    Next previous shut r r' bytes := by
  simp only [next] at took
  split at took
  · cases took
  · rename_i waits
    split at took
    · cases took
      exact .turn _ waits (.inl rfl)
    · cases took
      exact .turn _ waits (.inr rfl)
    · cases took
      exact .rethrow _ waits rfl
    · cases took
  · rename_i all rest sends
    split at took
    · cases took
      exact .send _ [] rest (by rw [append_nil, sends]) fun _ => rfl
    rename_i large
    cases took
    have more : all.drop (max 1 count) ≠ [] := by
      rw [ne_eq, drop_eq_nil_iff]
      exact fun short => large (.inr short)
    have whole : r.rest = .send (all.take (max 1 count) ++ all.drop (max 1 count)) :: rest := by
      rw [take_append_drop, sends]
    have part : Next previous shut r _ _ := .send _ _ _ whole fun closed =>
      absurd (.inl closed) large
    rwa [if_neg more] at part
  · rename_i ends
    cases took
    exact .finish _ ends

theorem Ended.stays (ended : r.Ended) (next : Next previous shut r r' bytes) : False := by
  cases next <;> simp_all [ended.rest]

theorem Waiting.next (waiting : r.Waiting) (script : InTurn r.script)
    (next : Next previous shut r r' bytes) :
    bytes = [] ∧ (r'.Waiting ∨ (previous = none ∨ previous = some .satisfied) ∧ r'.Writing []) := by
  cases waiting with
  | gone _ none => cases next <;> simp_all
  | idle pending whole =>
    obtain ⟨sending, sends, split⟩ := script
    rw [split] at whole
    cases next with
    | turn events waits passed =>
      cases whole.symm.trans waits
      refine ⟨rfl, .inr ⟨passed, .going pending sends ?_⟩⟩
      rw [split]
      rfl
    | rethrow => exact ⟨rfl, .inl (.gone rfl rfl)⟩
    | send _ _ _ sends => cases whole.symm.trans sends
    | finish _ ends => cases whole.symm.trans ends

theorem wire_send (bytes : Bytes) (events : List Event) :
    wire (.send bytes :: events) = bytes ++ wire events := rfl

theorem Writing.next (writing : r.Writing part) (next : Next previous shut r r' bytes) :
    r'.Writing (part ++ bytes) ∨ r'.Ended ∧ part ++ bytes = wire r.script := by
  cases writing with
  | gone _ none _ => cases next <;> simp_all
  | going pending sending whole =>
    obtain ⟨sends, all, split⟩ := sending
    cases sends with
    | nil =>
      -- only the promise is left
      rw [split] at whole
      cases next with
      | turn _ waits | rethrow _ waits => cases split.symm.trans waits
      | send _ _ _ sends => cases split.symm.trans sends
      | finish events ends =>
        cases split.symm.trans ends
        exact .inr ⟨⟨rfl, rfl⟩, by simpa [wire] using whole⟩
    | cons first sends =>
      obtain ⟨data, rfl⟩ := all first mem_cons_self
      have others : Sends sends := fun e mem => all e (mem_cons_of_mem _ mem)
      cases next with
      | turn _ waits | rethrow _ waits => cases split.symm.trans waits
      | finish _ ends => cases split.symm.trans ends
      | send _ more events sent =>
        cases split.symm.trans sent
        rw [split, cons_append, wire_send] at whole
        refine .inl (.going pending ?_ ?_)
        · split
          · exact ⟨sends, others, rfl⟩
          refine ⟨.send more :: sends, ?_, rfl⟩
          intro e mem
          rcases mem_cons.mp mem with rfl | mem
          · exact ⟨more, rfl⟩
          · exact others e mem
        · split
          · rename_i none
            rw [← whole, none]
            simp
          · rw [← whole, wire_send]
            simp

theorem Next.script (next : Next previous shut r r' bytes) :
    r'.script = r.script ∧ r'.prevFuture = r.prevFuture := by
  cases next <;> exact ⟨rfl, rfl⟩

theorem Next.wire (next : Next previous shut r r' bytes) :
    Http.wire r.rest = bytes ++ Http.wire r'.rest ∨ r' = r.abandon ∧ bytes = [] := by
  cases next with
  | turn events waits => exact .inl (by rw [waits]; rfl)
  | rethrow => exact .inr ⟨rfl, rfl⟩
  | finish events ends => exact .inl (by rw [ends]; rfl)
  | send _ more events sends =>
    refine .inl ?_
    rw [sends, wire_send]
    split
    · rename_i none
      simp [none]
    · rw [wire_send, append_assoc]

theorem Waiting.abandon (r : Response) : r.abandon.Waiting := .gone rfl rfl

theorem Writing.abandon (writing : r.Writing part) (pending : r.promise = .pending) :
    r.abandon.Writing part := by
  cases writing with
  | going _ _ whole => exact .gone rfl rfl ⟨_, whole⟩
  | gone broken => cases pending.symm.trans broken

def Unsent (r : Response) : Prop := Http.wire r.rest ≠ [] ∨ r.promise = .broken

theorem Waiting.unended (waiting : r.Waiting) : r.promise ≠ .satisfied := by
  cases waiting with
  | idle pending => simp [pending]
  | gone broken => simp [broken]

theorem Writing.unended (writing : r.Writing part) : r.promise ≠ .satisfied := by
  cases writing with
  | going pending => simp [pending]
  | gone broken => simp [broken]

end Response

namespace State
variable {s t : State}

inductive Moves (s : State) : State → Prop where
  | create (answer : Answer) (handler keepAlive expects : Bool) : s.loop = .parsing →
      Moves s (s.create answer handler keepAlive expects)
  | shutdown : s.loop ≠ .left → Moves s s.shutdown
  | loop (target : Loop) : s.loop ≠ .left → Moves s { s with loop := target }
  | interim (left bytes : Bytes) : Moves s ({ s with interim := left }.put .interim bytes)
  | resume (k : Nat) (r r' : Response) (bytes : Bytes) : s.responses[k]? = some r →
      r.Next (r.prevFuture.map s.promise) s.shut r' bytes →
      Moves s ((s.setResponse k r').put (.response k) bytes)
  | fails (k : Nat) (r : Response) : s.responses[k]? = some r → r.promise = .pending →
      Moves s (s.setResponse k r.abandon)

theorem step_moves (took : s.step label = some t) : Moves s t := by
  cases label with
  | request | badRequest =>
    simp only [step] at took
    split at took
    · cases took
      exact .create _ _ _ _ ‹_›
    · cases took
  | interim count =>
    simp only [step] at took
    split at took
    · cases took
    · cases took
      exact .interim _ _
  | returns =>
    simp only [step] at took
    split at took
    · rename_i answering
      have here : s.loop ≠ .left := by simp [answering]
      split at took
      · cases took
      split at took
      · cases took
        exact .loop _ here
      · cases took
        exact .shutdown here
    · cases took
  | throws =>
    simp only [step] at took
    split at took
    · rename_i answering
      split at took
      · cases took
      · cases took
        exact .shutdown (by simp [answering])
    · cases took
  | upgraded =>
    simp only [step] at took
    split at took
    · rename_i answering
      cases took
      exact .loop _ (by simp [answering])
    · cases took
  | resume k count =>
    obtain ⟨r, known, took⟩ := Option.bind_eq_some_iff.mp took
    obtain ⟨⟨r', bytes⟩, next, same⟩ := Option.bind_eq_some_iff.mp took
    cases same
    exact .resume k r r' bytes known (Response.next_cases next)
  | fails k =>
    obtain ⟨r, known, took⟩ := Option.bind_eq_some_iff.mp took
    split at took
    · cases took
      exact .fails k r known ‹_›
    · cases took

/-- The bytes of final responses that were handed to the stream, those that were lost included. -/
def offered (s : State) : List (Nat × UInt8) := (s.stream ++ s.lost).filterMap ofResponse

/-- The responses up to the one whose turn it is, which has sent `part` of itself. -/
structure Ordered (s : State) (done later : List Response) (part : Bytes) : Prop where
  split : s.responses = done ++ later
  ended : ∀ r ∈ done, r.Ended
  turn : ∀ r ∈ later.head?, r.Writing part ∨ (r.Waiting ∧ part = [])
  drained : later = [] → part = []
  behind : ∀ r ∈ later.tail, r.Waiting
  sent : s.offered = tagged (wire ·.script) done ++ part.map (done.length, ·)

structure Inv (s : State) : Prop where
  chain : ∀ k r, s.responses[k]? = some r → r.prevFuture = if k = 0 then none else some (k - 1)
  link : s.prevFuture = if s.responses.length = 0 then none else some (s.responses.length - 1)
  scripts : ∀ r ∈ s.responses, InTurn r.script
  order : ∃ done later part, Ordered s done later part
  dry : s.shut = false → s.lost = []
  left : s.shut = true → s.loop = .left

theorem tagged_append (bytes : Response → Bytes) (a b : List Response) :
    tagged bytes (a ++ b) = tagged bytes a ++
      (b.zipIdx a.length).flatMap fun entry => (bytes entry.1).map (entry.2, ·) := by
  rw [tagged, zipIdx_append, flatMap_append, Nat.zero_add]
  rfl

theorem tagged_concat (bytes : Response → Bytes) (a : List Response) (r : Response) :
    tagged bytes (a ++ [r]) = tagged bytes a ++ (bytes r).map (a.length, ·) := by
  rw [tagged_append]
  simp

theorem filterMap_response (k : Nat) (bytes : Bytes) :
    (bytes.map fun b => (Origin.response k, b)).filterMap ofResponse = bytes.map (k, ·) := by
  simp [Function.comp_def, ofResponse]

theorem filterMap_interim (bytes : Bytes) :
    (bytes.map fun b => (Origin.interim, b)).filterMap ofResponse = [] := by
  simp [ofResponse]

theorem put_offered (dry : s.shut = false → s.lost = []) (origin : Origin) (bytes : Bytes) :
    (s.put origin bytes).offered =
      s.offered ++ (bytes.map (origin, ·)).filterMap ofResponse := by
  unfold put
  split
  · simp [offered]
  · rename_i open_
    simp [offered, dry (by simpa using open_)]

@[simp] theorem put_responses (origin : Origin) (bytes : Bytes) :
    (s.put origin bytes).responses = s.responses := by
  unfold put
  split <;> rfl

@[simp] theorem put_loop (origin : Origin) (bytes : Bytes) :
    (s.put origin bytes).loop = s.loop := by
  unfold put
  split <;> rfl

@[simp] theorem put_prevFuture (origin : Origin) (bytes : Bytes) :
    (s.put origin bytes).prevFuture = s.prevFuture := by
  unfold put
  split <;> rfl

@[simp] theorem put_shut (origin : Origin) (bytes : Bytes) :
    (s.put origin bytes).shut = s.shut := by
  unfold put
  split <;> rfl

theorem Moves.eq_shutdown (moves : Moves s t) (isOpen : s.shut = false) (shut : t.shut = true) :
    t = s.shutdown := by
  cases moves with
  | shutdown => rfl
  | create | loop | fails => cases isOpen.symm.trans shut
  | interim => simp [isOpen] at shut
  | resume => simp [setResponse, isOpen] at shut

theorem put_dry (dry : s.shut = false → s.lost = []) (origin : Origin) (bytes : Bytes) :
    (s.put origin bytes).shut = false → (s.put origin bytes).lost = [] := by
  intro isOpen
  rw [put_shut] at isOpen
  simp only [put, isOpen]
  exact dry isOpen

theorem Ordered.congr (ordered : Ordered s done later part) (same : t.responses = s.responses)
    (offered : t.offered = s.offered) : Ordered t done later part where
  split := same.trans ordered.split
  ended := ordered.ended
  turn := ordered.turn
  drained := ordered.drained
  behind := ordered.behind
  sent := offered.trans ordered.sent

namespace Ordered
variable {done later : List Response} {part : Bytes} {r r' : Response} {shut : Bool}

/-- From the response on whose turn it is, none has ended. -/
theorem unended (ordered : Ordered s done later part) (mem : r ∈ later) :
    r.promise ≠ .satisfied := by
  cases later with
  | nil => cases mem
  | cons q rs =>
    rcases mem_cons.mp mem with rfl | mem
    · rcases ordered.turn _ rfl with writing | ⟨waiting, -⟩
      · exact writing.unended
      · exact waiting.unended
    · exact (ordered.behind r mem).unended

theorem promise_unended (ordered : Ordered s done later part) (le : done.length ≤ j) :
    s.promise j ≠ .satisfied := by
  rw [promise, ordered.split, getElem?_append_right le]
  cases known : later[j - done.length]? with
  | none => nofun
  | some r => exact ordered.unended (mem_of_getElem? known)

theorem here (ordered : Ordered s done (r :: rs) part) (script : InTurn r.script)
    (next : r.Next previous shut r' bytes) (same : t.responses = done ++ r' :: rs)
    (sent : t.offered = s.offered ++ bytes.map (done.length, ·)) :
    ∃ done' later' part', Ordered t done' later' part' := by
  rcases ordered.turn r rfl with writing | ⟨waiting, rfl⟩
  · rcases writing.next next with writing' | ⟨ended, whole⟩
    · refine ⟨done, r' :: rs, part ++ bytes, same, ordered.ended, ?_, nofun, ordered.behind, ?_⟩
      · rintro _ ⟨⟩
        exact .inl writing'
      · rw [sent, ordered.sent, map_append, append_assoc]
    refine ⟨done ++ [r'], rs, [], by simp [same], ?_, ?_, fun _ => rfl, ?_, ?_⟩
    · intro q mem
      rcases mem_append.mp mem with mem | mem
      · exact ordered.ended q mem
      · rw [mem_singleton.mp mem]
        exact ended
    · intro q first
      exact .inr ⟨ordered.behind q (mem_of_mem_head? first), rfl⟩
    · intro q mem
      exact ordered.behind q (mem_of_mem_tail mem)
    · rw [sent, ordered.sent, tagged_concat, next.script.1, ← whole]
      simp
  · obtain ⟨rfl, waiting' | ⟨-, writing⟩⟩ := waiting.next script next
    · refine ⟨done, r' :: rs, [], same, ordered.ended, ?_, fun _ => rfl, ordered.behind, ?_⟩
      · rintro _ ⟨⟩
        exact .inr ⟨waiting', rfl⟩
      · rw [sent, ordered.sent]
        simp
    · refine ⟨done, r' :: rs, [], same, ordered.ended, ?_, fun _ => rfl, ordered.behind, ?_⟩
      · rintro _ ⟨⟩
        exact .inl writing
      · rw [sent, ordered.sent]
        simp

theorem replace (ordered : Ordered s done (q :: rs) part) (waiting : r'.Waiting)
    (same : t.responses = done ++ q :: rs.set i r') (sent : t.offered = s.offered) :
    Ordered t done (q :: rs.set i r') part where
  split := same
  ended := ordered.ended
  turn := ordered.turn
  drained := nofun
  behind := by
    intro p mem
    rcases mem_or_eq_of_mem_set mem with mem | rfl
    · exact ordered.behind p mem
    · exact waiting
  sent := sent.trans ordered.sent

end Ordered

/-- Where a response stands among those that have ended, the one whose turn it is and those
behind. -/
theorem Ordered.position (ordered : Ordered s done later part) (known : s.responses[k]? = some r) :
    r ∈ done ∨ (k = done.length ∧ ∃ rs, later = r :: rs) ∨
      ∃ q rs i, later = q :: rs ∧ k = done.length + (i + 1) ∧ r ∈ rs := by
  rw [ordered.split] at known
  by_cases before : k < done.length
  · rw [getElem?_append_left before] at known
    exact .inl (mem_of_getElem? known)
  rw [getElem?_append_right (by omega)] at known
  cases later with
  | nil => simp at known
  | cons q rs =>
    cases offset : k - done.length with
    | zero =>
      rw [offset] at known
      cases known
      exact .inr (.inl ⟨by omega, rs, rfl⟩)
    | succ i =>
      rw [offset] at known
      exact .inr (.inr ⟨q, rs, i, rfl, by omega, mem_of_getElem? known⟩)

theorem Inv.order_resume (inv : Inv s) (known : s.responses[k]? = some r)
    (next : r.Next (r.prevFuture.map s.promise) s.shut r' bytes)
    (same : t.responses = s.responses.set k r') (sent : t.offered = s.offered ++ bytes.map (k, ·)) :
    ∃ done later part, Ordered t done later part := by
  have script := inv.scripts r (mem_of_getElem? known)
  obtain ⟨done, later, part, ordered⟩ := inv.order
  rw [ordered.split] at same
  rcases ordered.position known with mem | ⟨rfl, rs, rfl⟩ | ⟨q, rs, i, rfl, rfl, mem⟩
  · exact ((ordered.ended r mem).stays next).elim
  · rw [set_append_right _ _ (Nat.le_refl _), Nat.sub_self] at same
    exact ordered.here script next same sent
  obtain ⟨rfl, waiting | ⟨passed, -⟩⟩ := (ordered.behind r mem).next script next
  · rw [set_append_right _ _ (by omega), Nat.add_sub_cancel_left] at same
    exact ⟨_, _, _, ordered.replace waiting same (by simpa using sent)⟩
  -- its turn has not come: the response before it has not ended
  rw [inv.chain _ r known] at passed
  rcases passed with none | satisfied
  · cases none
  · exact absurd (Option.some.inj satisfied) (ordered.promise_unended (by omega))

theorem Inv.order_fails (inv : Inv s) (known : s.responses[k]? = some r)
    (pending : r.promise = .pending) (same : t.responses = s.responses.set k r.abandon)
    (sent : t.offered = s.offered) : ∃ done later part, Ordered t done later part := by
  obtain ⟨done, later, part, ordered⟩ := inv.order
  rw [ordered.split] at same
  rcases ordered.position known with mem | ⟨rfl, rs, rfl⟩ | ⟨q, rs, i, rfl, rfl, -⟩
  · cases (ordered.ended r mem).promise.symm.trans pending
  · rw [set_append_right _ _ (Nat.le_refl _), Nat.sub_self] at same
    refine ⟨done, r.abandon :: rs, part, same, ordered.ended, ?_, nofun, ordered.behind,
      sent.trans ordered.sent⟩
    rintro _ ⟨⟩
    rcases ordered.turn r rfl with writing | ⟨-, empty⟩
    · exact .inl (writing.abandon pending)
    · exact .inr ⟨.abandon r, empty⟩
  · rw [set_append_right _ _ (by omega), Nat.add_sub_cancel_left] at same
    exact ⟨_, _, _, ordered.replace (.abandon r) same sent⟩

theorem Inv.order_create (inv : Inv s) (pending : r.promise = .pending) (whole : r.rest = r.script)
    (same : t.responses = s.responses ++ [r]) (sent : t.offered = s.offered) :
    ∃ done later part, Ordered t done later part := by
  obtain ⟨done, later, part, ordered⟩ := inv.order
  rw [ordered.split, append_assoc] at same
  have waiting : r.Waiting := .idle pending whole
  cases later with
  | nil =>
    refine ⟨done, [r], part, same, ordered.ended, ?_, nofun, nofun, sent.trans ordered.sent⟩
    rintro _ ⟨⟩
    exact .inr ⟨waiting, ordered.drained rfl⟩
  | cons q rs =>
    refine ⟨done, q :: rs ++ [r], part, same, ordered.ended, ordered.turn, nofun, ?_,
      sent.trans ordered.sent⟩
    intro p mem
    rcases mem_append.mp mem with mem | mem
    · exact ordered.behind p mem
    · rw [mem_singleton.mp mem]
      exact waiting

theorem Inv.initial : Inv {} where
  chain := by simp
  link := rfl
  scripts := nofun
  order := ⟨[], [], [], rfl, nofun, nofun, fun _ => rfl, nofun, rfl⟩
  dry := fun _ => rfl
  left := nofun

theorem Inv.keep (inv : Inv s) (same : t.responses = s.responses)
    (future : t.prevFuture = s.prevFuture) (sent : t.offered = s.offered)
    (dry : t.shut = false → t.lost = []) (left : t.shut = true → t.loop = .left) : Inv t where
  chain := by
    rw [same]
    exact inv.chain
  link := by
    rw [same, future]
    exact inv.link
  scripts := by
    rw [same]
    exact inv.scripts
  order := by
    obtain ⟨done, later, part, ordered⟩ := inv.order
    exact ⟨done, later, part, ordered.congr same sent⟩
  dry := dry
  left := left

theorem Inv.set (inv : Inv s) (known : s.responses[k]? = some r)
    (kept : r'.script = r.script ∧ r'.prevFuture = r.prevFuture)
    (same : t.responses = s.responses.set k r') (future : t.prevFuture = s.prevFuture)
    (order : ∃ done later part, Ordered t done later part)
    (dry : t.shut = false → t.lost = []) (left : t.shut = true → t.loop = .left) : Inv t where
  chain := by
    intro j q found
    rw [same, getElem?_set] at found
    split at found
    · rename_i here
      split at found
      · cases found
        rw [kept.2, inv.chain k r known, here]
      · cases found
    · exact inv.chain j q found
  link := by
    rw [same, future, length_set]
    exact inv.link
  scripts := by
    intro q mem
    rw [same] at mem
    rcases mem_or_eq_of_mem_set mem with mem | rfl
    · exact inv.scripts q mem
    · rw [kept.1]
      exact inv.scripts r (mem_of_getElem? known)
  order := order
  dry := dry
  left := left

theorem Inv.create (inv : Inv s) (parsing : s.loop = .parsing) (answer : Answer)
    (handler keepAlive expects : Bool) : Inv (s.create answer handler keepAlive expects) where
  chain := by
    intro k r known
    simp only [State.create] at known
    by_cases old : k < s.responses.length
    · rw [getElem?_append_left old] at known
      exact inv.chain k r known
    rw [getElem?_append_right (by omega)] at known
    cases offset : k - s.responses.length with
    | zero =>
      rw [offset] at known
      cases known
      have same : k = s.responses.length := by omega
      rw [same]
      exact inv.link
    | succ i =>
      rw [offset] at known
      cases known
  link := by simp [State.create]
  scripts := by
    intro r mem
    rcases mem_append.mp mem with mem | mem
    · exact inv.scripts r mem
    · rw [mem_singleton.mp mem]
      exact answer.inTurn
  order := inv.order_create rfl rfl rfl rfl
  dry := inv.dry
  left := by
    intro shut
    cases (inv.left shut).symm.trans parsing

theorem Inv.step (inv : Inv s) (moves : Moves s t) : Inv t := by
  cases moves with
  | create answer handler keepAlive expects parsing =>
    exact inv.create parsing answer handler keepAlive expects
  | shutdown => exact inv.keep rfl rfl rfl nofun fun _ => rfl
  | loop target here =>
    exact inv.keep rfl rfl rfl inv.dry fun shut => absurd (inv.left shut) here
  | interim left bytes =>
    refine inv.keep ?_ ?_ ?_ (put_dry (s := { s with interim := left }) inv.dry _ _) ?_
    · simp
    · simp
    · rw [put_offered (s := { s with interim := left }) inv.dry, filterMap_interim, append_nil]
      rfl
    · simpa using inv.left
  | resume k r r' bytes known next =>
    have sent : ((s.setResponse k r').put (.response k) bytes).offered =
        s.offered ++ bytes.map (k, ·) := by
      rw [put_offered (s := s.setResponse k r') inv.dry, filterMap_response]
      rfl
    refine inv.set known next.script ?_ ?_ (inv.order_resume known next ?_ sent)
      (put_dry (s := s.setResponse k r') inv.dry _ _) ?_
    · simp [setResponse]
    · simp [setResponse]
    · simp [setResponse]
    · simpa [setResponse] using inv.left
  | fails k r known pending =>
    have kept : r.abandon.script = r.script ∧ r.abandon.prevFuture = r.prevFuture := ⟨rfl, rfl⟩
    exact inv.set known kept rfl rfl (inv.order_fails known pending rfl rfl) inv.dry inv.left

def lostBytes (s : State) : List (Nat × UInt8) := s.lost.filterMap ofResponse

theorem offered_eq : s.offered = s.final ++ s.lostBytes := filterMap_append

theorem Ordered.part_written (ordered : Ordered s done (r :: rs) part) : part <+: wire r.script := by
  rcases ordered.turn r rfl with (⟨-, -, whole⟩ | ⟨-, -, begun⟩) | ⟨-, rfl⟩
  · exact ⟨_, whole⟩
  · exact begun
  · exact nil_prefix

theorem Inv.offered_prefix (inv : Inv s) : s.offered <+: s.complete := by
  obtain ⟨done, later, part, ordered⟩ := inv.order
  rw [ordered.sent, complete, ordered.split, tagged_append, prefix_append_right_inj]
  cases later with
  | nil =>
    rw [ordered.drained rfl]
    exact nil_prefix
  | cons r rs =>
    exact (ordered.part_written.map _).trans (prefix_append _ _)

theorem Inv.offered_complete (inv : Inv s) (ended : s.AllEnded) : s.offered = s.complete := by
  obtain ⟨done, later, part, ordered⟩ := inv.order
  cases later with
  | nil =>
    rw [ordered.sent, ordered.drained rfl, complete, ordered.split]
    simp
  | cons r rs =>
    have mem : r ∈ s.responses := by simp [ordered.split]
    exact absurd (ended r mem) (ordered.unended mem_cons_self)

theorem Inv.ended_rest (inv : Inv s) (mem : r ∈ s.responses) (ended : r.promise = .satisfied) :
    r.rest = [] := by
  obtain ⟨done, later, part, ordered⟩ := inv.order
  rw [ordered.split] at mem
  rcases mem_append.mp mem with mem | mem
  · exact (ordered.ended r mem).rest
  · exact absurd ended (ordered.unended mem)

theorem Inv.broken_rest (inv : Inv s) (mem : r ∈ s.responses) (broken : r.promise = .broken) :
    r.rest = [] := by
  obtain ⟨done, later, part, ordered⟩ := inv.order
  rw [ordered.split] at mem
  rcases mem_append.mp mem with mem | mem
  · cases (ordered.ended r mem).promise.symm.trans broken
  have phases : (∃ part, r.Writing part) ∨ r.Waiting := by
    cases later with
    | nil => cases mem
    | cons q rs =>
      rcases mem_cons.mp mem with rfl | mem
      · exact (ordered.turn _ rfl).imp (fun writing => ⟨part, writing⟩) And.left
      · exact .inr (ordered.behind r mem)
  rcases phases with ⟨-, ⟨pending, -⟩ | ⟨-, none, -⟩⟩ | ⟨pending, -⟩ | ⟨-, none⟩
  · cases pending.symm.trans broken
  · exact none
  · cases pending.symm.trans broken
  · exact none

structure Doomed (s : State) : Prop where
  shut : s.shut = true
  loss : s.lostBytes ≠ [] ∨ ∃ r ∈ s.responses, r.Unsent

theorem lostBytes_put (shut : s.shut = true) (origin : Origin) (bytes : Bytes) :
    (s.put origin bytes).lostBytes = s.lostBytes ++ (bytes.map (origin, ·)).filterMap ofResponse := by
  simp [put, shut, lostBytes]

theorem lostBytes_put_open (isOpen : s.shut = false) (origin : Origin) (bytes : Bytes) :
    (s.put origin bytes).lostBytes = s.lostBytes := by
  simp [put, isOpen, lostBytes]

theorem mem_set_or {l : List Response} (known : l[k]? = some r) (r' : Response) (mem : q ∈ l) :
    q = r ∨ q ∈ l.set k r' := by
  obtain ⟨j, at_j⟩ := mem_iff_getElem?.mp mem
  by_cases here : k = j
  · rw [here, at_j] at known
    exact .inl (Option.some.inj known)
  · refine .inr (mem_of_getElem? (i := j) ?_)
    rw [getElem?_set_ne here, at_j]

theorem mem_set_self {l : List Response} (known : l[k]? = some r) (r' : Response) :
    r' ∈ l.set k r' :=
  List.mem_set (List.getElem?_eq_some_iff.mp known).1 r'

theorem Doomed.step (doomed : Doomed s) (inv : Inv s) (moves : Moves s t) : Doomed t := by
  have left := inv.left doomed.shut
  cases moves with
  | create answer handler keepAlive expects parsing => cases left.symm.trans parsing
  | shutdown here | loop target here => exact absurd left here
  | interim rest bytes =>
    refine ⟨by simpa using doomed.shut, ?_⟩
    rw [lostBytes_put (s := { s with interim := rest }) doomed.shut, filterMap_interim,
      append_nil, put_responses]
    exact doomed.loss
  | resume k r r' bytes known next =>
    refine ⟨by simpa [setResponse] using doomed.shut, ?_⟩
    rw [lostBytes_put (s := s.setResponse k r') doomed.shut, filterMap_response, put_responses]
    have self := mem_set_self known r'
    rcases doomed.loss with lost | ⟨q, mem, unsent⟩
    · exact .inl (append_ne_nil_of_left_ne_nil lost _)
    rcases mem_set_or known r' mem with rfl | stays
    · rcases unsent with some | broken
      · rcases next.wire with split | ⟨rfl, -⟩
        · -- its bytes are lost now or still to be sent
          by_cases none : bytes = []
          · rw [none, nil_append] at split
            exact .inr ⟨r', self, .inl (split ▸ some)⟩
          · exact .inl (append_ne_nil_of_right_ne_nil _ (by simpa using none))
        · exact .inr ⟨_, self, .inr rfl⟩
      · have none := inv.broken_rest mem broken
        cases next <;> simp_all
    · exact .inr ⟨q, stays, unsent⟩
  | fails k r known pending =>
    refine ⟨doomed.shut, doomed.loss.imp_right ?_⟩
    rintro ⟨q, mem, unsent⟩
    rcases mem_set_or known r.abandon mem with rfl | stays
    · exact ⟨_, mem_set_self known _, .inr rfl⟩
    · exact ⟨q, stays, unsent⟩

/-- Nothing is lost, and after the shutdown nothing is left to be lost. -/
structure Safe (s : State) : Prop where
  kept : s.lostBytes = []
  sent : s.shut = true → ∀ r ∈ s.responses, wire r.rest = []

theorem Safe.step (safe : Safe s) (inv : Inv s) (took : s.step label = some t)
    (timely : Timely s label) : Safe t := by
  have moves := step_moves took
  cases moves with
  | create answer handler keepAlive expects parsing =>
    refine ⟨safe.kept, fun shut => ?_⟩
    cases (inv.left shut).symm.trans parsing
  | shutdown here =>
    refine ⟨safe.kept, fun _ => timely _ took ?_ rfl⟩
    cases shut : s.shut with
    | false => rfl
    | true => exact absurd (inv.left shut) here
  | loop target here => exact { safe with }
  | interim rest bytes =>
    refine ⟨?_, by simpa using safe.sent⟩
    by_cases shut : s.shut = true
    · rw [lostBytes_put (s := { s with interim := rest }) shut, filterMap_interim, append_nil]
      exact safe.kept
    · rw [lostBytes_put_open (by simpa using shut)]
      exact safe.kept
  | resume k r r' bytes known next =>
    cases shut : s.shut with
    | false =>
      refine ⟨(lostBytes_put_open (s := s.setResponse k r') shut _ _).trans safe.kept, ?_⟩
      simp [setResponse, shut]
    | true =>
      have mem := mem_of_getElem? known
      have dry : bytes = [] ∧ wire r'.rest = [] := by
        rcases next.wire with split | ⟨rfl, none⟩
        · rw [safe.sent shut r mem] at split
          exact append_eq_nil_iff.mp split.symm
        · exact ⟨none, rfl⟩
      constructor
      · rw [lostBytes_put (s := s.setResponse k r') shut, filterMap_response, dry.1, map_nil,
          append_nil]
        exact safe.kept
      intro _ q mem
      rw [put_responses] at mem
      rcases mem_or_eq_of_mem_set mem with mem | rfl
      · exact safe.sent shut q mem
      · exact dry.2
  | fails k r known pending =>
    refine ⟨safe.kept, fun shut q mem => ?_⟩
    rcases mem_or_eq_of_mem_set mem with mem | rfl
    · exact safe.sent shut q mem
    · rfl

section run
open Transition
variable {labels : List Label}

theorem Inv.run {allowed : State → Label → Prop} (run : Run State.step allowed {} labels s) : Inv s :=
  run.invariant Inv.initial fun inv _ took => inv.step (step_moves took)

theorem Safe.run (run : Run State.step Timely {} labels s) : Safe s := by
  have both : Inv s ∧ Safe s := by
    refine run.invariant (P := fun s => Inv s ∧ Safe s) ⟨Inv.initial, rfl, nofun⟩ ?_
    rintro t u label ⟨inv, safe⟩ timely took
    exact ⟨inv.step (step_moves took), safe.step inv took timely⟩
  exact both.2

/-- A run in which the stream is shut down too early is doomed from there on. -/
theorem timely_or_doomed (run : Run step free {} labels s) :
    Run step Timely {} labels s ∨ Doomed s := by
  induction run with
  | refl => exact .inl .refl
  | @next labels t label u before _ took ih =>
    have inv := Inv.run before
    rcases ih with timely | doomed
    · by_cases now : Timely t label
      · exact .inl (.next timely now took)
      right
      simp only [Timely, not_forall] at now
      obtain ⟨u', took', isOpen, shut, r, mem, some⟩ := now
      cases took.symm.trans took'
      cases (step_moves took).eq_shutdown isOpen shut
      exact ⟨rfl, .inr ⟨r, mem, .inl some⟩⟩
    · exact .inr (doomed.step inv (step_moves took))

end run
end State

open Transition in
/-- In every run the final responses go out in the order of the requests, none before the one
before it is complete. Once all have ended they are complete, exactly if the stream was not shut
down while one of them had bytes to send. -/
theorem final_responses_in_order (run : Run State.step free {} labels s) : s.final <+: s.complete ∧
      (s.AllEnded → (s.final = s.complete ↔ Run State.step Timely {} labels s)) := by
  have inv := State.Inv.run run
  constructor
  · refine List.IsPrefix.trans ?_ inv.offered_prefix
    rw [State.offered_eq]
    exact prefix_append _ _
  intro ended
  have all := inv.offered_complete ended
  rw [State.offered_eq] at all
  rw [← all, self_eq_append_right]
  constructor
  · intro kept
    rcases State.timely_or_doomed run with timely | doomed
    · exact timely
    rcases doomed.loss with lost | ⟨r, mem, some | broken⟩
    · exact absurd kept lost
    · rw [inv.ended_rest mem (ended r mem)] at some
      exact absurd rfl some
    · cases (ended r mem).symm.trans broken
  · intro timely
    exact (State.Safe.run timely).kept

def hello : Answer where
  env := {}
  ignoreBody := false
  sendDateHeader := false
  calls := []
  last := .data (Text.ascii "hi")
  events := _
  responds := rfl

def helloHead : Answer where
  env := {}
  ignoreBody := true
  sendDateHeader := false
  calls := []
  last := .data (Text.ascii "hi")
  events := _
  responds := rfl

/-- Two handlers return before they have answered; the request after them is malformed. -/
def earlyReturns : List Label :=
  [.request hello true true true, .interim 25, .returns,
    .request helloHead true true false, .returns, .badRequest {} false,
    .resume 0 0, .resume 0 7, .resume 0 100, .resume 0 0, .resume 1 0, .resume 1 100, .resume 1 0,
    .resume 2 0, .resume 2 200, .resume 2 0, .returns]

theorem final_responses_in_order_early : ∃ s, exec State.step {} earlyReturns = some s ∧
    s.AllEnded ∧ Run State.step Timely {} earlyReturns s := by
  have ends : ∃ s, exec State.step {} earlyReturns = some s ∧
      (∀ r ∈ s.responses, r.promise = .satisfied) ∧ s.final = s.complete :=
    exec_any (by decide +kernel)
  obtain ⟨s, done, ended, same⟩ := ends
  exact ⟨s, done, ended, ((final_responses_in_order (.of_exec done)).2 ended).mp same⟩

/-- The handler of a request that asks to close the connection returns before it has answered. -/
def earlyClose : List Label :=
  [.request hello true false false, .returns, .resume 0 0, .resume 0 100, .resume 0 0]

/-- The stream is shut down under the response: it ends, and nothing of it was sent. -/
theorem final_response_lost : ∃ s, Run State.step free {} earlyClose s ∧
    s.AllEnded ∧ s.final = [] ∧ s.complete ≠ [] := by
  have ends : ∃ s, exec State.step {} earlyClose = some s ∧
      (∀ r ∈ s.responses, r.promise = .satisfied) ∧ s.final = [] ∧ s.complete ≠ [] :=
    exec_any (by decide +kernel)
  obtain ⟨s, done, ended, nothing, some⟩ := ends
  exact ⟨s, .of_exec done, ended, nothing, some⟩

end Pipeline
end Nitrocoro.Http
