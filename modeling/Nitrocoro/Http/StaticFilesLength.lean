import Nitrocoro.Http.StaticFilesAnswers

/-! The length that a response of the static file handler announces, and the bytes that it sends. -/

namespace Nitrocoro.Http.StaticFiles
open Text Transition Option Numeral
open List hiding after length
variable {R : Type} [DecidableEq R] {s u : State R} {labels : List (Action R)}
variable {h : StaticFiles} {platform : Platform} {disk : Disk} {t : Target} {req : HttpRequest}

def Phase.outstanding : Phase → Nat
  | .sending _ length sent => length - sent
  | .writing buf sent _ => buf.length - sent
  | _ => 0

structure Sized (s : State R) : Prop where
  whole : ∀ r, s.phase r ≠ .failed →
    (s.body r).length + (s.phase r).outstanding = (s.data r).length
  idle : ∀ r, s.phase r = .idle → s.data r = [] ∧ s.body r = []

omit [DecidableEq R] in
theorem Inv.memory_length (inv : Inv s) (sending : s.phase r = .sending addr length sent)
    (within : sent + n ≤ length) (junk : List UInt8) (given : junk.length = n) :
    (s.memory addr sent n junk).length = n := by
  obtain ⟨-, rfl, same⟩ := inv.sending r addr length sent sending
  unfold State.memory
  split
  · rename_i node found
    rw [same node (inv.sound.lookup_iff.mp found), length_take, length_drop]
    omega
  · exact given

namespace Sized

omit [DecidableEq R] in
theorem start : Sized ({} : State R) := ⟨fun _ _ => rfl, fun _ _ => ⟨rfl, rfl⟩⟩

theorem move (sized : Sized s) (begun : phase ≠ .idle)
    (whole : phase ≠ .failed → body.length + phase.outstanding = data.length) :
    Sized (s.move r phase data body) := by
  constructor <;> intro r' <;> simp only [State.move] <;> rcases eq_or_ne r' r with rfl | other
  · simpa only [Function.update_self] using whole
  · simpa only [Function.update_of_ne other] using sized.whole r'
  · simp [begun]
  · simpa only [Function.update_of_ne other] using sized.idle r'

theorem goto (sized : Sized s) (here : s.phase r = before) (going : before ≠ .failed)
    (begun : phase ≠ .idle) (same : phase.outstanding = before.outstanding) :
    Sized (s.setPhase r phase) := by
  have whole := sized.whole r (here ▸ going)
  rw [here, ← same] at whole
  rw [setPhase_eq_move]
  exact sized.move begun fun _ => whole

theorem begin (sized : Sized s) (idle : s.phase r = .idle) (handled : Handled) :
    Sized (s.begin r handled) := by
  obtain ⟨data, body⟩ := sized.idle r idle
  constructor
  · intro r'
    rcases eq_or_ne r' r with rfl | other
    · rcases handled with (_ | _) | _ | _ <;>
        simp [State.begin, State.setPhase, Phase.outstanding, data, body]
    · obtain ⟨phase, data, body⟩ := begin_of_ne s r handled other
      rw [phase, data, body]
      exact sized.whole r'
  · intro r'
    rcases eq_or_ne r' r with rfl | other
    · rcases handled with (_ | _) | _ | _ <;> simp [State.begin, State.setPhase]
    · obtain ⟨phase, data, body⟩ := begin_of_ne s r handled other
      rw [phase, data, body]
      exact sized.idle r'

theorem step (sized : Sized s) (inv : Inv s) (took : s.step h platform label = some u) :
    Sized u := by
  cases label with
  | request r req params disk =>
    obtain ⟨idle, rfl⟩ := of_ite took
    have served : Sized { s with
        cache := (h.handle platform disk req params s.now s.cache).2
        now := s.now + disk.elapsed } := { sized with }
    exact served.begin idle _
  | send r n junk =>
    simp only [State.step] at took
    split at took
    case h_3 => cases took
    · rename_i addr length sent sending
      obtain ⟨⟨-, within, given⟩, rfl⟩ := of_ite took
      have whole := sized.whole r (by simp [sending])
      rw [sending, Phase.outstanding] at whole
      rw [emit_eq_move]
      refine sized.move (by simp) fun _ => ?_
      rw [length_append, inv.memory_length sending within junk given, Phase.outstanding]
      omega
    · rename_i buf sent remaining writing
      obtain ⟨⟨-, -⟩, rfl⟩ := of_ite took
      have whole := sized.whole r (by simp [writing])
      rw [writing, Phase.outstanding] at whole
      rw [emit_eq_move]
      refine sized.move (by simp) fun _ => ?_
      rw [length_append, length_take, length_drop, Phase.outstanding]
      omega
  | written r =>
    simp only [State.step] at took
    split at took
    case h_3 => cases took
    · rename_i addr length sent sending
      obtain ⟨rfl, rfl⟩ := of_ite took
      exact sized.goto sending (by simp) (by simp) (Nat.sub_self _).symm
    rename_i buf sent remaining writing
    obtain ⟨rfl, rfl⟩ := of_ite took
    exact sized.goto writing (by simp) (by simp) (by simp [Phase.outstanding])
  | read r chunk =>
    simp only [State.step] at took
    split at took
    case h_2 => cases took
    rename_i remaining reading
    split at took
    · cases took
      exact sized.goto reading (by simp) (by simp) rfl
    obtain ⟨-, rfl⟩ := of_ite took
    have whole := sized.whole r (by simp [reading])
    rw [reading] at whole
    rw [read_eq_move]
    refine sized.move (by simp) fun _ => ?_
    simp only [Phase.outstanding, length_append] at whole ⊢
    omega
  | finish r =>
    obtain ⟨ending, rfl⟩ := of_ite took
    exact sized.goto ending (by simp) (by simp) rfl
  | fail r =>
    simp only [State.step] at took
    split at took <;> cases took <;> rw [setPhase_eq_move] <;>
      exact sized.move (by simp) fun other => absurd rfl other
  | tick later =>
    cases took
    exact { sized with }

end Sized

def callsOf : Handled → List Call
  | .early .thrown => []
  | .early (.ends calls) | .sends calls _ _ | .streams calls _ => calls

def dataOf : Handled → Option Bytes
  | .early _ => some []
  | .sends _ _ node => some node.data
  | .streams .. => none

def Phase.reads : Phase → Bool
  | .reading _ | .writing .. => true
  | _ => false

omit [DecidableEq R] in
theorem Moves.reads {data body : Bytes} (moves : Moves s r phase data body) :
    phase ≠ .idle ∧ (phase ≠ .failed → s.phase r ≠ .failed) ∧
      ((s.phase r).reads = false → data = s.data r ∧ phase.reads = false) := by
  cases moves with
  | fail before => simp [Phase.reads]
  | _ before => simp [before, Phase.reads]

/-- The coroutine of a request goes on with what the handler has come to. -/
structure Carries (handled : Handled) (r : R) (s : State R) : Prop where
  begun : s.phase r ≠ .idle
  calls : s.phase r ≠ .failed → s.calls r = callsOf handled
  data : ∀ data, dataOf handled = some data → s.data r = data ∧ (s.phase r).reads = false

namespace Carries
variable {handled : Handled} {r : R}

theorem begin (sized : Sized s) (idle : s.phase r = .idle) (handled : Handled) :
    Carries handled r (s.begin r handled) := by
  obtain ⟨data, -⟩ := sized.idle r idle
  rcases handled with (_ | _) | _ | _ <;> constructor <;>
    simp [State.begin, State.setPhase, callsOf, dataOf, Phase.reads, data]

omit [DecidableEq R] in
theorem congr (carries : Carries handled r s) (phase : u.phase r = s.phase r)
    (calls : u.calls r = s.calls r) (data : u.data r = s.data r) : Carries handled r u := by
  constructor
  · rw [phase]
    exact carries.begun
  · rw [phase, calls]
    exact carries.calls
  · rw [phase, data]
    exact carries.data

theorem step (carries : Carries handled r s) (took : s.step h platform label = some u) :
    Carries handled r u := by
  rcases step_cases took with ⟨r', req, params, disk, -, idle, rfl⟩ |
    ⟨-, ⟨r', phase, data, body, moves, rfl⟩ | ⟨later, rfl⟩⟩
  · have other : r ≠ r' := by
      rintro rfl
      exact carries.begun idle
    obtain ⟨phase, data, -⟩ := begin_of_ne { s with
      cache := (h.handle platform disk req params s.now s.cache).2
      now := s.now + disk.elapsed } r' (h.handle platform disk req params s.now s.cache).1 other
    refine carries.congr phase ?_ data
    rcases (h.handle platform disk req params s.now s.cache).1 with (_ | _) | _ | _ <;>
      simp [State.begin, State.setPhase, other]
  · rcases eq_or_ne r r' with rfl | other
    · obtain ⟨begun, failed, reads⟩ := moves.reads
      constructor
      · simpa [State.move] using begun
      · intro alive
        simp only [State.move, Function.update_self] at alive ⊢
        exact carries.calls (failed alive)
      intro d known
      obtain ⟨same, quiet⟩ := carries.data d known
      simp only [State.move, Function.update_self]
      obtain ⟨kept, quiet⟩ := reads quiet
      exact ⟨kept.trans same, quiet⟩
    · refine carries.congr ?_ ?_ ?_ <;> simp [State.move, other]
  · exact carries.congr rfl rfl rfl

end Carries

theorem returned_of_run (run : Reaches h platform (before ++ .request r req params disk :: after) s)
    (reached : exec (State.step h platform) {} before = some u) (returned : s.phase r = .returned) :
    Inv u ∧ Carries (h.handle platform disk req params u.now u.cache).1 r s ∧
      (s.body r).length = (s.data r).length := by
  have kept : Inv u ∧ Sized u := (Run.of_exec reached).invariant
    (P := fun s => Inv s ∧ Sized s) ⟨.start, .start⟩
    fun ⟨inv, sized⟩ _ took => ⟨inv.step took, sized.step inv took⟩
  obtain ⟨inv, sized⟩ := kept
  have rest := run.exec_eq
  rw [exec_append reached] at rest
  obtain ⟨v, took, rest⟩ := bind_eq_some_iff.mp rest
  have first : Carries (h.handle platform disk req params u.now u.cache).1 r v := by
    obtain ⟨idle, rfl⟩ := of_ite took
    have served : Sized { u with
        cache := (h.handle platform disk req params u.now u.cache).2
        now := u.now + disk.elapsed } := { sized with }
    exact .begin served idle _
  obtain ⟨-, sized, carries⟩ := (Run.of_exec rest).invariant
    (P := fun s => Inv s ∧ Sized s ∧ Carries (h.handle platform disk req params u.now u.cache).1 r s)
    ⟨inv.step took, sized.step inv took, first⟩
    fun ⟨inv, sized, carries⟩ _ took =>
      ⟨inv.step took, sized.step inv took, carries.step took⟩
  have whole := sized.whole r (by simp [returned])
  rw [returned] at whole
  exact ⟨inv, carries, whole⟩

/-- The answers to a request that asks for a body and is not answered from the cache. -/
inductive Fetches (h : StaticFiles) (platform : Platform) (disk : Disk) (t : Target) :
    Handled → Prop where
  | closed (failed : disk.fopen t.actualPath = none) :
      Fetches h platform disk t (.early (.ends (h.missCalls platform t ++ [.setStatus 500 []])))
  | short (opened : disk.fopen t.actualPath = some content) (enabled : h.cacheEnabled t = true)
      (less : content.length < t.stat.size) :
      Fetches h platform disk t (.early (.ends (h.okCalls platform t ++ [.setStatus 500 []])))
  | sends (opened : disk.fopen t.actualPath = some content) (enabled : h.cacheEnabled t = true)
      (whole : t.stat.size ≤ content.length) (data : node.data.length = t.stat.size) :
      Fetches h platform disk t (.sends (h.okCalls platform t) addr node)
  | streams (opened : disk.fopen t.actualPath = some content)
      (disabled : h.cacheEnabled t = false) :
      Fetches h platform disk t (.streams (h.okCalls platform t) t.stat.size)

theorem fetches_fill (h : StaticFiles) (platform : Platform) (disk : Disk)
    (get : req.method ≠ .head) (now : Int) (c : FileCache) :
    Fetches h platform disk t (h.fill platform disk t req now c).1 := by
  unfold fill
  rw [if_neg get]
  cases opened : disk.fopen t.actualPath with
  | none => exact .closed opened
  | some content =>
    cases enabled : h.cacheEnabled t with
    | true =>
      have calls : h.okCalls platform t = h.missCalls platform t ++
          optional h.opts.cacheHeader (.setHeader h.opts.cacheHeader (ascii "MISS")) := by
        rw [okCalls, if_pos enabled]
      simp only [← calls, length_take]
      by_cases less : content.length < t.stat.size
      · have cut : min t.stat.size content.length ≠ t.stat.size := by omega
        rw [if_pos cut]
        exact .short opened enabled less
      have whole : ¬ min t.stat.size content.length ≠ t.stat.size := by omega
      rw [if_neg whole]
      refine .sends opened enabled (not_lt.mp less) ?_
      simp only [cacheNode, length_take]
      omega
    | false =>
      have calls : h.okCalls platform t = h.missCalls platform t := by simp [okCalls, enabled]
      simp only [← calls]
      exact .streams opened enabled

def writesOf (blocks : List Bytes) : Handled → List Bytes
  | .early _ => []
  | .sends .. => [blocks.flatten]
  | .streams .. => blocks

/-- Whether the file is there for the length that was announced, with what was read in the loop. -/
def Whole (h : StaticFiles) (disk : Disk) (t : Target) (read : Bytes) : Prop :=
  match disk.fopen t.actualPath with
  | none => t.stat.size = 0
  | some content =>
    if h.cacheEnabled t then t.stat.size ≤ content.length else read.length = t.stat.size

/-- None of the calls of a handler writes, and one sets the length if there is a body; the length is
right if `whole` holds of the body. A body from memory is not sent with a length that is no number. -/
structure Announces (handled : Handled) (whole : Bytes → Prop) : Prop where
  quiet : ∀ call ∈ callsOf handled, call.isWrite = false
  counted : (∃ answer, handled = .early answer) ∨
    (headerSet (callsOf handled) NameCode.ContentLength.codeToName).isSome
  right : ∀ data, (∀ known, dataOf handled = some known → data = known) →
    (∀ calls addr node, handled = .sends calls addr node → ∀ value,
      headerSet calls NameCode.ContentLength.codeToName = some value →
        ∃ n, stoul 10 value = .ok n) →
    ((headerSet (callsOf handled) NameCode.ContentLength.codeToName).getD (print 10 0) =
      print 10 data.length ↔ whole data)

theorem quiet_optional (present : Bytes) (quiet : call.isWrite = false) :
    ∀ call' ∈ optional present call, call'.isWrite = false := by
  unfold optional
  split <;> simp [quiet]

theorem quiet_missCalls (h : StaticFiles) (platform : Platform) (early : Early.Calls t.calls) :
    ∀ call ∈ h.missCalls platform t, call.isWrite = false := by
  simp only [missCalls, forall_mem_append]
  exact ⟨⟨⟨early.quiet, by simp [Call.isWrite]⟩, quiet_optional _ rfl⟩, by simp [Call.isWrite]⟩

theorem quiet_okCalls (h : StaticFiles) (platform : Platform) (early : Early.Calls t.calls) :
    ∀ call ∈ h.okCalls platform t, call.isWrite = false := by
  rw [okCalls, forall_mem_append]
  refine ⟨quiet_missCalls h platform early, ?_⟩
  split
  · exact quiet_optional _ rfl
  · exact nofun

theorem quiet_hitCalls (early : Early.Calls t.calls) (node : CacheNode) :
    ∀ call ∈ h.hitCalls t node, call.isWrite = false := by
  simp only [hitCalls, forall_mem_append]
  exact ⟨⟨⟨⟨⟨early.quiet, by simp [Call.isWrite]⟩, quiet_optional _ rfl⟩, quiet_optional _ rfl⟩,
    by simp [Call.isWrite]⟩, quiet_optional _ rfl⟩

theorem unread_hit : stoul 10 (ascii "HIT") = .error .invalidArgument := rfl

theorem unread_miss : stoul 10 (ascii "MISS") = .error .invalidArgument := rfl

namespace Announces
variable {whole : Bytes → Prop}

theorem early {calls : List Call} (quiet : ∀ call ∈ calls, call.isWrite = false)
    (right : (headerSet calls NameCode.ContentLength.codeToName).getD (print 10 0) =
      print 10 0 ↔ whole []) : Announces (.early (.ends calls)) whole := by
  refine ⟨quiet, .inl ⟨_, rfl⟩, fun data known _ => ?_⟩
  rw [known [] rfl]
  exact right

/-- An answer with data from memory, whose length may be masked by another text. -/
theorem sends {masked : Prop} [Decidable masked] {calls : List Call}
    (quiet : ∀ call ∈ calls, call.isWrite = false)
    (length : headerSet calls NameCode.ContentLength.codeToName =
      if masked then some text else some (print 10 node.data.length))
    (unread : ∀ n, stoul 10 text ≠ .ok n) (all : whole node.data) :
    Announces (.sends calls addr node) whole := by
  refine ⟨quiet, .inr ?_, fun data known parses => ?_⟩
  · rw [callsOf, length]
    split <;> rfl
  obtain rfl := known _ rfl
  rw [callsOf]
  split at length
  · obtain ⟨n, parsed⟩ := parses calls addr node rfl _ length
    exact absurd parsed (unread n)
  · rw [length]
    exact iff_of_true rfl all

theorem refuses {calls : List Call} (refusal : Refusal calls) (all : whole []) :
    Announces (.early (.ends calls)) whole := by
  obtain ⟨-, -, -, rfl, rfl | ⟨-, rfl⟩⟩ := refusal
  · exact early (by simp [Call.isWrite]) (iff_of_true (by simp) all)
  · exact early (by simp [Call.isWrite]) (iff_of_true (by simp [codeToName_eq_iff]) all)

theorem fetches {handled : Handled} (calls : Early.Calls t.calls)
    (fetches : Fetches h platform disk t handled) : Announces handled (h.Whole disk t) := by
  have quiet := quiet_okCalls h platform calls
  have length := headerSet_okCalls_length h platform calls
  cases fetches with
  | closed failed =>
    refine early ?_ ?_
    · rw [forall_mem_append]
      exact ⟨quiet_missCalls h platform calls, by simp [Call.isWrite]⟩
    · simp [(headerSet_missCalls h platform calls).2.2.1, Whole, failed, print_inj]
  | @short content opened enabled less =>
    refine early ?_ ?_
    · rw [forall_mem_append]
      exact ⟨quiet, by simp [Call.isWrite]⟩
    have some : t.stat.size ≠ 0 := by omega
    have named : ascii "MISS" ≠ print 10 0 := by decide
    have cut : ¬ h.Whole disk t [] := by simp [Whole, opened, enabled, less]
    refine iff_of_false ?_ cut
    rw [headerSet_append, headerSet_status, headerSet_nil, length]
    split
    · exact named
    · exact print_inj.not.mpr some
  | @sends content node addr opened enabled all data =>
    rw [← data] at length
    exact sends quiet length (fun n => by rw [unread_miss]; rintro ⟨⟩)
      (by simp [Whole, opened, enabled, all])
  | @streams content opened disabled =>
    refine ⟨quiet, .inr ?_, fun data _ _ => ?_⟩
    · rw [callsOf, length]
      split <;> rfl
    · simp [callsOf, length, disabled, Whole, opened, print_inj, eq_comm]

end Announces

theorem announces_handle (h : StaticFiles) (platform : Platform) (disk : Disk) (params : PathParams)
    (now : Int) (get : req.method ≠ .head) (sound : c.Sound) :
    Announces (h.handle platform disk req params now c).1 fun data =>
      ∀ t, h.target platform disk req params = .ok t →
        (h.cacheEnabled t && h.hit t now c) = false → h.Whole disk t data := by
  unfold handle
  cases found : h.target platform disk req params with
  | error answer =>
    cases answer with
    | ends calls => exact .refuses (target_error found) nofun
    | thrown =>
      refine ⟨nofun, .inl ⟨_, rfl⟩, fun data known _ => ?_⟩
      rw [known [] rfl]
      exact iff_of_true rfl nofun
  | ok t =>
    have calls := target_calls found
    cases answered : h.cacheEnabled t && h.hit t now c with
    | true =>
      obtain ⟨addr, node, -, -, -, served⟩ := serve_eq_hit platform disk req sound answered
      simp only [served, if_neg get]
      refine .sends (quiet_hitCalls calls node) (headerSet_hitCalls h calls node).2.2.1
        (fun n => by rw [unread_hit]; exact nofun) ?_
      rintro _ ⟨⟩ miss
      cases answered.symm.trans miss
    | false =>
      obtain ⟨d, same⟩ := serve_eq_fill platform disk req sound answered
      obtain ⟨quiet, counted, right⟩ :=
        Announces.fetches calls (fetches_fill h platform disk get now d)
      simp only [same]
      refine ⟨quiet, counted, fun data known parses => (right data known parses).trans ?_⟩
      constructor
      · rintro all _ ⟨⟩ -
        exact all
      · exact fun all => all t rfl answered

/-- A response to GET that is sent has the head that the calls of the handler make and the body
behind it. The body has the announced length exactly if, unless the cache answers, the file can be
opened or is empty, and as many bytes are read as `stat` has told. -/
theorem length_announced_iff
    (run : Reaches h platform (before ++ .request r req params disk :: after) s)
    (reached : exec (State.step h platform) {} before = some u)
    (get : req.method = .get) (returned : s.phase r = .returned) (body : blocks.flatten = s.body r)
    (responded : (OutgoingResponse.create false sendDate).respond env .plain (s.calls r ++
      (writesOf blocks (h.handle platform disk req params u.now u.cache).1).map .write) =
        .ok events) :
    wire events =
      (OutgoingResponse.head sendDate (s.calls r)).buildHeaders env ++ (crlf ++ s.body r) ∧
    (((OutgoingResponse.head sendDate (s.calls r)).data.headers.lookup
        NameCode.ContentLength.codeToName).map HttpHeader.value =
          some (print 10 (s.body r).length) ↔
      ∀ t, h.target platform disk req params = .ok t →
        (h.cacheEnabled t && h.hit t u.now u.cache) = false → h.Whole disk t (s.data r)) := by
  obtain ⟨inv, carries, length⟩ := returned_of_run run reached returned
  obtain ⟨quiet, counted, right⟩ :=
    announces_handle h platform disk params u.now (get ▸ get_ne_head) inv.sound
  rw [carries.calls (by simp [returned])] at responded ⊢
  generalize (h.handle platform disk req params u.now u.cache).1 = handled
    at carries quiet counted right responded ⊢
  have whole : (writesOf blocks handled).flatten = s.body r := by
    cases handled with
    | early answer =>
      rw [(carries.data [] rfl).1] at length
      exact (length_eq_zero_iff.mp length).symm
    | sends => simpa [writesOf] using body
    | streams => exact body
  obtain ⟨value, set⟩ : ∃ value, writesOf blocks handled = [] ∨
      headerSet (callsOf handled) NameCode.ContentLength.codeToName = some value := by
    rcases counted with ⟨-, rfl⟩ | some
    · exact ⟨[], .inl rfl⟩
    · obtain ⟨value, set⟩ := isSome_iff_exists.mp some
      exact ⟨value, .inr set⟩
  obtain ⟨sent, number⟩ := OutgoingResponse.wire_respond quiet set responded
  refine ⟨whole ▸ sent, ?_⟩
  rw [OutgoingResponse.head_length, Option.some.injEq, length]
  apply right (s.data r) (fun known same => (carries.data known same).1)
  rintro calls addr node rfl value' set'
  have writes : writesOf blocks (.sends calls addr node) ≠ [] := cons_ne_nil _ _
  cases (set.resolve_left writes).symm.trans set'
  exact number.resolve_left writes

theorem ok_of_isOk {x : Except ε α} (ok : x.isOk) : ∃ a, x = .ok a := by
  cases x with
  | error e => cases ok
  | ok a => exact ⟨a, rfl⟩

def sentFile : List (Action Nat) :=
  [getFile 0 [97], .send 0 1 [0], .written 0, .finish 0]

theorem length_announced_one : ∃ (s : State Nat) (events : List Event),
    Reaches oneByte plainPaths sentFile s ∧ s.phase 0 = .returned ∧
    (OutgoingResponse.create false true).respond {} .plain (s.calls 0 ++ [.write [97]]) =
      .ok events ∧
    wire events = (OutgoingResponse.head true (s.calls 0)).buildHeaders {} ++ (crlf ++ [97]) ∧
    ((OutgoingResponse.head true (s.calls 0)).data.headers.lookup
      NameCode.ContentLength.codeToName).map HttpHeader.value = some (print 10 1) := by
  obtain ⟨s, done, returned, body, sent⟩ : ∃ s : State Nat,
      exec (State.step oneByte plainPaths) {} sentFile = some s ∧
        s.phase 0 = .returned ∧ s.body 0 = [97] ∧
        ((OutgoingResponse.create false true).respond {} .plain
          (s.calls 0 ++ [.write [97]])).isOk := exec_any (by decide)
  obtain ⟨events, responded⟩ := ok_of_isOk sent
  have run : Reaches oneByte plainPaths ([] ++ getFile 0 [97] :: sentFile.tail) s := .of_exec done
  have blocks : [[97]].flatten = s.body 0 := body.symm
  obtain ⟨bytes, right⟩ := length_announced_iff run rfl rfl returned blocks responded
  rw [body] at bytes right
  refine ⟨s, events, run, returned, responded, bytes, right.mpr ?_⟩
  rintro t ⟨⟩ -
  exact Nat.le_refl 1

def closedDisk : Disk := { plainDisk with fopen := fun _ => none }

/-- The answer 500 announces the length of the file, and has no body. -/
theorem length_of_unread : ∃ (s : State Nat) (events : List Event),
    Reaches oneByte plainPaths [.request 0 { method := .get } [([], [97])] closedDisk, .finish 0]
      s ∧ s.phase 0 = .returned ∧ s.body 0 = [] ∧
    (OutgoingResponse.create false true).respond {} .plain (s.calls 0) = .ok events ∧
    (OutgoingResponse.head true (s.calls 0)).data.statusCode = 500 ∧
    ((OutgoingResponse.head true (s.calls 0)).data.headers.lookup
      NameCode.ContentLength.codeToName).map HttpHeader.value = some (ascii "1") := by
  obtain ⟨s, done, returned, body, sent, status, length⟩ : ∃ s : State Nat,
      exec (State.step oneByte plainPaths) {}
        [.request 0 { method := .get } [([], [97])] closedDisk, .finish 0] = some s ∧
      s.phase 0 = .returned ∧ s.body 0 = [] ∧
      ((OutgoingResponse.create false true).respond {} .plain (s.calls 0)).isOk ∧
      (OutgoingResponse.head true (s.calls 0)).data.statusCode = 500 ∧
      ((OutgoingResponse.head true (s.calls 0)).data.headers.lookup
        NameCode.ContentLength.codeToName).map HttpHeader.value = some (ascii "1") :=
    exec_any (by decide)
  obtain ⟨events, responded⟩ := ok_of_isOk sent
  exact ⟨s, events, .of_exec done, returned, body, responded, status, length⟩

end Nitrocoro.Http.StaticFiles
