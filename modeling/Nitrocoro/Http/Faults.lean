import Nitrocoro.Http.OutgoingMessage

/-! Outgoing messages whose futures and writes may fail. A call that throws has already changed the
state of the stream, and the caller may go on with other calls. -/
namespace Nitrocoro.Http
open Text List

inductive Resumption where
  | ok
  /-- The stream took `n` bytes and was closed; its `write` returns 0, which nobody looks at. -/
  | short (n : Nat)
  /-- The future is broken, or the write throws after `n` bytes. -/
  | throws (n : Nat)
  deriving DecidableEq

namespace Resumption

def isThrow : Resumption → Bool
  | .throws _ => true
  | _ => false

def Stops (n : Nat) : Resumption → Prop
  | .ok => False
  | .short k => k < n
  | .throws k => k < n

end Resumption

inductive Part where
  | head
  | body
  deriving DecidableEq

/-- A call and what happens at its suspension points, in order; past the list nothing fails. -/
structure Attempt (M : Type) [MessageKind M] where
  call : AnyCall M
  env : Env := {}
  outcomes : List Resumption := []

def tag (n : Nat) (bytes : Bytes) : List (Part × UInt8) :=
  (bytes.take n).map (Part.head, ·) ++ (bytes.drop n).map (Part.body, ·)

/-- What the events of a call put on the stream, the first `n` bytes for the header block. -/
def perform (n : Nat) : List Event → List Resumption → List (Part × UInt8)
  | [], _ => []
  | .send bytes :: events, outcomes =>
    match outcomes.headD .ok with
    | .ok => tag n bytes ++ perform (n - bytes.length) events outcomes.tail
    | .short k => (tag n bytes).take k ++ perform (n - bytes.length) events outcomes.tail
    | .throws k => (tag n bytes).take k
  | _ :: events, outcomes =>
    match outcomes.headD .ok with
    | .throws _ => []
    | _ => perform n events outcomes.tail

namespace Outgoing
variable [MessageKind M]

def transmit : List (Attempt M) → Outgoing M → List (Part × UInt8)
  | [], _ => []
  | attempt :: run, o =>
    let (o', events) := o.react attempt.env attempt.call
    let n := if o.headersSent then 0 else (o'.buildHeaders attempt.env ++ crlf).length
    perform n events attempt.outcomes ++ transmit run o'

/-- The call after which the headers count as sent, and the state that they are built from. -/
def opener : List (Attempt M) → Outgoing M → Option (Attempt M × Outgoing M)
  | [], _ => none
  | attempt :: run, o =>
    let o' := (o.react attempt.env attempt.call).1
    if o'.headersSent then some (attempt, o') else opener run o'

/-- The header block. -/
def block (run : List (Attempt M)) (o : Outgoing M) : Bytes :=
  (o.opener run).elim [] fun opener => opener.2.buildHeaders opener.1.env ++ crlf

/-- The previous response is broken, or the write that begins with the header block of `n` bytes
ends inside it. -/
def CutsHead (n : Nat) (outcomes : List Resumption) : Prop :=
  (outcomes.headD .ok).isThrow ∨ (outcomes.tail.headD .ok).Stops n

/-- The call that sends the header block fails before the block is complete. -/
def Hurt (run : List (Attempt M)) (o : Outgoing M) : Prop :=
  (o.opener run).elim False fun opener => CutsHead (o.block run).length opener.1.outcomes

end Outgoing

def heads (sent : List (Part × UInt8)) : Bytes :=
  (sent.filter (·.1 = .head)).map Prod.snd

def HeadFirst (block : Bytes) (sent : List (Part × UInt8)) : Prop :=
  ∀ before b after, sent = before ++ (Part.body, b) :: after → heads before = block

section Stream
variable {head data : Bytes} {bodies : List (Part × UInt8)}

theorem tag_append (head data : Bytes) :
    tag head.length (head ++ data) = head.map (Part.head, ·) ++ data.map (Part.body, ·) := by
  rw [tag, take_left, drop_left]

theorem mem_tag_zero (mem : x ∈ tag 0 bytes) : x.1 = .body := by
  obtain ⟨_, -, rfl⟩ := mem_map.mp mem
  rfl

theorem perform_zero (events : List Event) (outcomes : List Resumption) :
    ∀ x ∈ perform 0 events outcomes, x.1 = .body := by
  induction events generalizing outcomes with
  | nil => exact nofun
  | cons event events ih =>
    intro x mem
    cases event with
    | send bytes =>
      simp only [perform, Nat.zero_sub] at mem
      split at mem
      · rcases mem_append.mp mem with here | later
        · exact mem_tag_zero here
        · exact ih _ x later
      · rcases mem_append.mp mem with here | later
        · exact mem_tag_zero (mem_of_mem_take here)
        · exact ih _ x later
      · exact mem_tag_zero (mem_of_mem_take mem)
    | awaitPrev | finish =>
      simp only [perform] at mem
      split at mem
      · cases mem
      · exact ih _ x mem

/-- What was sent is a front of the header block and then only body. -/
structure Shape (block front : Bytes) (rest sent : List (Part × UInt8)) : Prop where
  sent : sent = front.map (Part.head, ·) ++ rest
  bodies : ∀ x ∈ rest, x.1 = .body
  initial : front <+: block

theorem heads_append (a b : List (Part × UInt8)) : heads (a ++ b) = heads a ++ heads b := by
  rw [heads, filter_append, map_append]
  rfl

theorem heads_map (bytes : Bytes) : heads (bytes.map (Part.head, ·)) = bytes := by
  simp [heads, filter_map]

theorem heads_bodies {l : List (Part × UInt8)} (bodies : ∀ x ∈ l, x.1 = Part.body) :
    heads l = [] := by
  rw [heads, map_eq_nil_iff, filter_eq_nil_iff]
  intro x mem
  simp [bodies x mem]

theorem Shape.headFirst_iff {l : List (Part × UInt8)} (shape : Shape block front rest l) :
    HeadFirst block l ↔ front = block ∨ rest = [] := by
  obtain ⟨rfl, bodies, -⟩ := shape
  constructor
  · intro first
    cases rest with
    | nil => exact .inr rfl
    | cons x rest =>
      obtain ⟨part, b⟩ := x
      cases bodies _ mem_cons_self
      have whole := first _ b rest rfl
      rw [heads_map] at whole
      exact .inl whole
  · intro either before b after split
    -- a byte of the body lies behind all that was sent of the header block
    have behind : ∃ more, before = front.map (Part.head, ·) ++ more ∧
        rest = more ++ (Part.body, b) :: after := by
      rcases append_eq_append_iff.mp split with found | ⟨more, inside, tail⟩
      · exact found
      cases more with
      | nil => exact ⟨[], by rw [inside, append_nil, append_nil], tail.symm⟩
      | cons x more =>
        cases tail
        have mem : (Part.body, b) ∈ front.map (Part.head, ·) := by
          rw [inside]
          exact mem_append_right _ mem_cons_self
        obtain ⟨_, -, impossible⟩ := mem_map.mp mem
        cases impossible
    obtain ⟨more, rfl, rfl⟩ := behind
    rcases either with rfl | none
    · have only : heads more = [] :=
        heads_bodies fun x mem => bodies x (mem_append_left _ mem)
      rw [heads_append, heads_map, only, append_nil]
    · exact absurd none (by simp)

theorem perform_send (head data : Bytes) (events : List Event) (outcomes : List Resumption) :
    ∃ front rest, Shape head front rest
        (perform head.length (.send (head ++ data) :: events) outcomes) ∧
      (front = head ↔ ¬ (outcomes.headD .ok).Stops head.length) := by
  have behind : head.length - (head ++ data).length = 0 := Nat.sub_eq_zero_of_le (by simp)
  have cut : ∀ k (more : List (Part × UInt8)), (∀ x ∈ more, x.1 = .body) → ∃ rest,
      Shape head (head.take k) rest ((tag head.length (head ++ data)).take k ++ more) := by
    intro k more bodies
    refine ⟨_, ⟨by rw [tag_append, take_append, map_take, append_assoc], ?_, take_prefix _ _⟩⟩
    intro x mem
    rcases mem_append.mp mem with here | later
    · exact mem_tag_zero (mem_of_mem_take here)
    · exact bodies x later
  have partly : ∀ k, head.take k = head ↔ ¬ k < head.length := by
    intro k
    rw [take_eq_self_iff, Nat.not_lt]
  simp only [perform, behind]
  cases outcome : outcomes.headD .ok with
  | ok =>
    obtain ⟨rest, shape⟩ := cut (head ++ data).length _ (perform_zero events outcomes.tail)
    have all : head.take (head ++ data).length = head := take_of_length_le (by simp)
    have every : (tag head.length (head ++ data)).take (head ++ data).length =
        tag head.length (head ++ data) := take_of_length_le (by simp [tag_append])
    rw [all, every] at shape
    exact ⟨head, rest, shape, iff_of_true rfl id⟩
  | short k =>
    obtain ⟨rest, shape⟩ := cut k _ (perform_zero events outcomes.tail)
    exact ⟨_, rest, shape, partly k⟩
  | throws k =>
    obtain ⟨rest, shape⟩ := cut k [] nofun
    rw [append_nil] at shape
    exact ⟨_, rest, shape, partly k⟩

theorem perform_head (some : head ≠ []) (data : Bytes) (events : List Event)
    (outcomes : List Resumption) : ∃ front rest, Shape head front rest
        (perform head.length (.awaitPrev :: .send (head ++ data) :: events) outcomes) ∧
      (front = head ↔ ¬ Outgoing.CutsHead head.length outcomes) := by
  obtain ⟨front, rest, shape, whole⟩ := perform_send head data events outcomes.tail
  simp only [perform, Outgoing.CutsHead]
  cases outcome : outcomes.headD .ok with
  | throws k =>
    exact ⟨[], [], ⟨rfl, nofun, nil_prefix⟩, iff_of_false some.symm (not_not_intro (.inl rfl))⟩
  | ok | short => exact ⟨front, rest, shape, whole.trans (by simp [Resumption.isThrow])⟩

theorem perform_finish (n : Nat) (outcomes : List Resumption) :
    perform n [.finish] outcomes = [] := by
  simp only [perform]
  split <;> rfl

theorem perform_alone (head : Bytes) (outcomes : List Resumption) :
    ∀ x ∈ perform head.length [.awaitPrev, .send head, .finish] outcomes, x.1 = .head := by
  have heads : ∀ x ∈ tag head.length head, x.1 = .head := by
    intro x mem
    have block : tag head.length head = head.map (Part.head, ·) := by simp [tag]
    rw [block] at mem
    obtain ⟨_, -, rfl⟩ := mem_map.mp mem
    rfl
  have sent : ∀ outcomes, ∀ x ∈ perform head.length [.send head, .finish] outcomes,
      x.1 = .head := by
    intro outcomes x mem
    rw [perform] at mem
    simp only [perform_finish, append_nil] at mem
    split at mem
    · exact heads x mem
    · exact heads x (mem_of_mem_take mem)
    · exact heads x (mem_of_mem_take mem)
  intro x mem
  rw [perform] at mem
  · split at mem
    · cases mem
    · exact sent _ x mem
  · exact nofun

end Stream

namespace Outgoing
variable [MessageKind M] {o o' : Outgoing M} {env : Env}

theorem head_ne_nil (env : Env) (o : Outgoing M) : o.buildHeaders env ++ crlf ≠ [] := by
  simp [crlf]

section Calls

/-- What a call does to the header block: it is out before, it stays unsent and no event happens,
or the call sends it in front of everything else. -/
inductive HeadEffect (env : Env) (o o' : Outgoing M)
    (events : List Event) : Prop where
  | sent (before : o.headersSent = true) (after : o'.headersSent = true)
  | none (before : o.headersSent = false) (after : o'.headersSent = false) (silent : events = [])
  | sends (before : o.headersSent = false) (after : o'.headersSent = true) (data : Bytes)
      (more : List Event) (whole : events = .awaitPrev :: .send (o'.buildHeaders env ++ crlf ++ data) :: more)

theorem headEffect_same (same : o'.headersSent = o.headersSent) : HeadEffect env o o' [] := by
  cases sent : o.headersSent with
  | true => exact .sent sent (same.trans sent)
  | false => exact .none sent (same.trans sent) rfl

theorem headEffect_writeHeaders (same : o'.headersSent = o.headersSent) (events : List Event) :
    HeadEffect env o (o'.writeHeaders env).1
      ((o'.writeHeaders env).2 ++ events) := by
  cases sent : o.headersSent with
  | true =>
    have sent' := same.trans sent
    simp only [writeHeaders, sent']
    exact .sent sent sent'
  | false =>
    have unsent := same.trans sent
    simp only [writeHeaders, unsent]
    refine .sends sent rfl [] events ?_
    rw [append_nil]
    rfl

theorem headEffect_write (o : Outgoing M) (env : Env) (data : Bytes) :
    HeadEffect env o (o.write env data).1
      ((o.write env data).2.toOption.getD []) := by
  simp only [write]
  split
  · exact headEffect_same rfl
  split
  · exact headEffect_same rfl
  · rename_i chosen decided
    apply headEffect_writeHeaders
    exact (choice_decideTransferMode decided).sent

theorem headEffect_finish {counted : Outgoing M} (same : counted.headersSent = o.headersSent)
    (env : Env) : HeadEffect env o (counted.finish env).1 (counted.finish env).2 := by
  simp only [finish]
  split
  · rw [append_assoc]
    exact headEffect_writeHeaders same _
  · rw [append_assoc]
    apply headEffect_writeHeaders
    exact same

theorem headEffect_finishBody (same : o'.headersSent = o.headersSent) (env : Env) (data : Bytes) :
    HeadEffect env o (o'.finishBody env data).1 (o'.finishBody env data).2 := by
  simp only [finishBody]
  split
  · rename_i merged
    refine .sends (same.symm.trans merged.1) rfl data [.finish] ?_
    rw [append_assoc]
    rfl
  · rw [append_assoc]
    exact headEffect_writeHeaders same _

theorem headEffect_react (o : Outgoing M) (env : Env) (call : AnyCall M) :
    HeadEffect env o (o.react env call).1 (o.react env call).2 := by
  cases call with
  | early call =>
    cases call with
    | setHeader | edit => exact headEffect_same rfl
    | write data => exact headEffect_write o env data
  | ending last =>
    cases last with
    | plain => exact headEffect_finish rfl env
    | data data =>
      simp only [react, ending, finishWith]
      split
      · apply headEffect_finish
        rfl
      · apply headEffect_finishBody
        exact (choice_hinted _ _).sent

theorem ignores_writeHeaders (env : Env) (o : Outgoing M) :
    (o.writeHeaders env).1.ignoreBody = o.ignoreBody := by
  rw [writeHeaders]
  split <;> rfl

theorem ignores_finish (env : Env) (o : Outgoing M) :
    (o.finish env).1.ignoreBody = o.ignoreBody := by
  simp only [finish]
  rw [ignores_writeHeaders]
  split <;> rfl

theorem ignores_react (o : Outgoing M) (env : Env) (call : AnyCall M) :
    (o.react env call).1.ignoreBody = o.ignoreBody := by
  cases call with
  | early call =>
    cases call with
    | setHeader | edit => rfl
    | write data =>
      simp only [react, Outgoing.call, write]
      split
      · rfl
      split
      · rfl
      · rename_i decided
        rw [ignores_writeHeaders]
        exact (choice_decideTransferMode decided).ignores
  | ending last =>
    cases last with
    | plain => exact ignores_finish env o
    | data data =>
      simp only [react, ending, finishWith]
      split
      · exact ignores_finish env _
      simp only [finishBody]
      split
      · exact (choice_hinted _ _).ignores
      · rw [ignores_writeHeaders]
        exact (choice_hinted _ _).ignores

end Calls

section Runs
variable {run later : List (Attempt M)}

theorem transmit_sent (sent : o.headersSent = true) (run : List (Attempt M)) :
    ∀ x ∈ o.transmit run, x.1 = .body := by
  induction run generalizing o with
  | nil => exact nofun
  | cons attempt run ih =>
    intro x mem
    simp only [transmit, sent] at mem
    rcases mem_append.mp mem with here | later
    · exact perform_zero _ _ x here
    cases headEffect_react o attempt.env attempt.call with
    | sent _ after => exact ih after x later
    | none before | sends before => cases sent.symm.trans before

/-- What goes out is a front of the header block and then the body. It is the whole block exactly
if the block is not hurt. -/
theorem transmit_shape (unsent : o.headersSent = false) (run : List (Attempt M)) :
    ∃ front rest, Shape (o.block run) front rest (o.transmit run) ∧
      (front = o.block run ↔ ¬ o.Hurt run) := by
  induction run generalizing o with
  | nil => exact ⟨[], [], ⟨rfl, nofun, nil_prefix⟩, iff_of_true rfl id⟩
  | cons attempt run ih =>
    have effect := headEffect_react o attempt.env attempt.call
    simp only [transmit, block, Hurt, opener, unsent, Bool.false_eq_true, if_false]
    generalize o.react attempt.env attempt.call = done at effect
    obtain ⟨o', events⟩ := done
    dsimp only at effect ⊢
    cases effect with
    | sent before => cases unsent.symm.trans before
    | none _ after silent =>
      cases silent
      simp only [after]
      exact ih after
    | sends _ after data more whole =>
      cases whole
      simp only [after]
      obtain ⟨front, rest, ⟨sent, bodies, initial⟩, whole⟩ :=
        perform_head (head_ne_nil attempt.env o') data more attempt.outcomes
      refine ⟨front, rest ++ o'.transmit run, ⟨?_, ?_, initial⟩, whole⟩
      · rw [sent, append_assoc]
      intro x mem
      rcases mem_append.mp mem with here | later
      · exact bodies x here
      · exact transmit_sent after run x later

theorem not_hurt_quiet (quiet : ∀ attempt ∈ later, attempt.outcomes = []) (o : Outgoing M) :
    ¬ o.Hurt later := by
  induction later generalizing o with
  | nil => exact id
  | cons attempt later ih =>
    obtain ⟨first, others⟩ := forall_mem_cons.mp quiet
    simp only [Hurt, block, opener]
    split
    · simp [first, CutsHead, Resumption.isThrow, Resumption.Stops]
    · exact ih others _

theorem hurt_append (quiet : ∀ attempt ∈ later, attempt.outcomes = []) (o : Outgoing M) :
    o.Hurt (run ++ later) ↔ o.Hurt run := by
  induction run generalizing o with
  | nil => exact iff_of_false (not_hurt_quiet quiet o) id
  | cons attempt run ih =>
    simp only [cons_append, Hurt, block, opener]
    split
    · rfl
    · exact ih _

def oneByte : Attempt M := { call := .ending (.data [0]) }

theorem perform_ok (mem : b ∈ bytes) (events : List Event) :
    (Part.body, b) ∈ perform 0 (.send bytes :: events) [] := by
  apply mem_append_left
  exact mem_map_of_mem mem

theorem transmit_oneByte (sent : o.headersSent = true) (body : o.ignoreBody = false) :
    (Part.body, 0) ∈ o.transmit [oneByte] := by
  let counted := o.counted [0]
  have chosen : ∃ writer, (counted.hinted 1).bodyWriter = some writer := by
    rw [hinted]
    split
    · rename_i decided
      exact Option.isSome_iff_exists.mp decided
    · exact ⟨_, rfl⟩
  obtain ⟨writer, chosen⟩ := chosen
  have sent' : (counted.hinted 1).headersSent = true := (choice_hinted _ _).sent.trans sent
  have events : (o.react {} (.ending (.data [0]))).2 =
      writer.write {} [0] ++ writer.finish ++ [.finish] := by
    have goes : o.react {} (.ending (.data [0])) =
        (counted.hinted 1).finishBody {} [0] := if_neg (by simp [Outgoing.counted, body])
    simp [goes, finishBody, writeHeaders, sent', chosen]
  simp only [transmit, oneByte, sent, append_nil]
  rw [events]
  cases writer with
  | contentLength | untilClose => exact perform_ok mem_cons_self _
  | chunked => exact perform_ok (by simp) _

theorem transmit_sent_oneByte (sent : o.headersSent = true) (body : o.ignoreBody = false)
    (run : List (Attempt M)) : (Part.body, 0) ∈ o.transmit (run ++ [oneByte]) := by
  induction run generalizing o with
  | nil => exact transmit_oneByte sent body
  | cons attempt run ih =>
    apply mem_append_right
    apply ih
    · cases headEffect_react o attempt.env attempt.call with
      | sent _ after => exact after
      | none before | sends before => cases sent.symm.trans before
    · exact (ignores_react o attempt.env attempt.call).trans body

/-- After a failure in the header block the next call sends a byte of the body. -/
theorem transmit_hurt (hurt : o.Hurt run) (body : o.ignoreBody = false) :
    (Part.body, 0) ∈ o.transmit (run ++ [oneByte]) := by
  induction run generalizing o with
  | nil => cases hurt
  | cons attempt run ih =>
    have body' := (ignores_react o attempt.env attempt.call).trans body
    simp only [Hurt, block, opener] at hurt
    apply mem_append_right
    split at hurt
    · rename_i sent
      exact transmit_sent_oneByte sent body' run
    · exact ih hurt body'

structure Silent (o : Outgoing M) : Prop where
  ignores : o.ignoreBody = true
  undecided : o.bodyWriter = none

theorem Silent.writeHeaders (silent : Silent o) (env : Env) : Silent (o.writeHeaders env).1 := by
  rw [Outgoing.writeHeaders]
  split <;> exact { silent with }

theorem finish_silent_eq (silent : Silent o) (env : Env) :
    ∃ named : Outgoing M, Silent named ∧ named.headersSent = o.headersSent ∧
      o.finish env = ((named.writeHeaders env).1, (named.writeHeaders env).2 ++ [.finish]) := by
  have ends : ∀ named : Outgoing M, Silent named → ((named.writeHeaders env).1,
      (named.writeHeaders env).2 ++
        (named.writeHeaders env).1.bodyWriter.elim [] (·.finish) ++ [Event.finish]) =
      ((named.writeHeaders env).1, (named.writeHeaders env).2 ++ [.finish]) := by
    intro named silent
    rw [(silent.writeHeaders env).undecided, Option.elim_none, append_nil]
  simp only [finish]
  split
  · exact ⟨o, silent, rfl, ends o silent⟩
  have silent' : Silent (o.setLength o.bodyLength.toNat) := { silent with }
  exact ⟨_, silent', rfl, ends _ silent'⟩

theorem finish_silent (silent : Silent o) (env : Env) (outcomes : List Resumption) :
    Silent (o.finish env).1 ∧ ∀ x ∈ perform
      (if o.headersSent then 0 else ((o.finish env).1.buildHeaders env ++ crlf).length)
      (o.finish env).2 outcomes, x.1 = .head := by
  obtain ⟨named, silent', same, done⟩ := finish_silent_eq silent env
  rw [done]
  refine ⟨silent'.writeHeaders env, ?_⟩
  cases sent : o.headersSent with
  | true =>
    simp only [writeHeaders, same.trans sent, if_true, nil_append, perform_finish]
    simp
  | false =>
    simp only [writeHeaders, same.trans sent]
    exact perform_alone (named.buildHeaders env ++ crlf) outcomes

theorem react_silent (silent : Silent o) (env : Env) (call : AnyCall M)
    (outcomes : List Resumption) : Silent (o.react env call).1 ∧ ∀ x ∈ perform
      (if o.headersSent then 0 else ((o.react env call).1.buildHeaders env ++ crlf).length)
      (o.react env call).2 outcomes, x.1 = .head := by
  cases call with
  | early call =>
    cases call with
    | setHeader | edit => exact ⟨{ silent with }, forall_mem_nil _⟩
    | write data =>
      have skips : o.write env data = (o.counted data, .ok []) := if_pos silent.ignores
      simp only [react, Outgoing.call, skips]
      exact ⟨{ silent with }, forall_mem_nil _⟩
  | ending last =>
    cases last with
    | plain => exact finish_silent silent env outcomes
    | data data =>
      let counted := o.counted data
      have skips : o.react env (.ending (.data data)) = counted.finish env :=
        if_pos (.inl silent.ignores)
      have silent' : Silent counted := { silent with }
      rw [skips]
      exact finish_silent silent' env outcomes

theorem transmit_silent (silent : Silent o) (run : List (Attempt M)) :
    ∀ x ∈ o.transmit run, x.1 = .head := by
  induction run generalizing o with
  | nil => exact nofun
  | cons attempt run ih =>
    obtain ⟨silent', heads⟩ := react_silent silent attempt.env attempt.call attempt.outcomes
    intro x mem
    rcases mem_append.mp mem with here | later
    · exact heads x here
    · exact ih silent' x later

/-- Whatever is called after `run`, and none of it fails, the body is sent behind the whole header
block: this is so exactly if the body is ignored or no failure hits the header block in `run`. A
failure elsewhere does no harm. -/
theorem body_behind_head_iff (data : M) (ignoreBody sendDateHeader : Bool)
    (run : List (Attempt M)) :
    let o : Outgoing M := { data, ignoreBody, sendDateHeader }
    (∀ later : List (Attempt M), (∀ attempt ∈ later, attempt.outcomes = []) →
      HeadFirst (o.block (run ++ later)) (o.transmit (run ++ later))) ↔
        ignoreBody = true ∨ ¬ o.Hurt run := by
  intro o
  constructor
  · intro first
    by_contra neither
    obtain ⟨reads, hurt⟩ := not_or.mp neither
    have quiet : ∀ attempt ∈ [oneByte (M := M)], attempt.outcomes = [] := by
      intro attempt mem
      rw [mem_singleton.mp mem]
      rfl
    obtain ⟨front, rest, shape, whole⟩ := transmit_shape (o := o) rfl (run ++ [oneByte])
    rcases shape.headFirst_iff.mp (first _ quiet) with all | none
    · exact whole.mp all ((hurt_append quiet o).mpr (not_not.mp hurt))
    have mem := transmit_hurt (not_not.mp hurt) (Bool.eq_false_iff.mpr reads)
    rw [shape.sent, none, append_nil] at mem
    obtain ⟨_, -, impossible⟩ := mem_map.mp mem
    cases impossible
  · intro either later quiet
    obtain ⟨front, rest, shape, whole⟩ := transmit_shape (o := o) rfl (run ++ later)
    rcases either with ignores | sound
    · intro before b after split
      have mem : (Part.body, b) ∈ o.transmit (run ++ later) := by simp [split]
      cases transmit_silent ⟨ignores, rfl⟩ _ _ mem
    · rw [shape.headFirst_iff]
      exact .inl (whole.mpr (mt (hurt_append quiet o).mp sound))

/-- The previous response is broken, so that the first write throws; the second one does not. -/
def secondWrite : List (Attempt HttpResponse) :=
  [{ call := .early (.write (ascii "a")), outcomes := [.throws 0] },
    { call := .early (.write (ascii "b")) }]

/-- The second write sends its chunk, and no header block is ever sent. -/
theorem chunk_without_head :
    let o : Outgoing HttpResponse := { data := {}, sendDateHeader := false }
    o.transmit secondWrite =
        (ascii "1\r\nb\r\n").map (Part.body, ·) ∧
      ¬ HeadFirst (o.block secondWrite)
        (o.transmit secondWrite) := by
  intro o
  have sent : o.transmit secondWrite =
      (ascii "1\r\nb\r\n").map (Part.body, ·) := by decide +kernel
  refine ⟨sent, ?_⟩
  intro first
  have whole := first [] _ _ sent
  revert whole
  decide +kernel

end Runs
end Outgoing

end Nitrocoro.Http
